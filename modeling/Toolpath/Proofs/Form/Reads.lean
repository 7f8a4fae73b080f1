import Toolpath.Proofs.Form.Record

/-!
What a decoder reads from every source that admits it. Lists, records and variants are read if their
parts are.
-/
namespace Toolpath
open Decode

namespace Value
variable {v : Value} {elements : List Value} {e : String × Value} {members : List (String × Value)}

theorem depth_le_of_mem_elements (h : v ∈ elements) : v.depth ≤ depthElements elements := by
  induction elements with
  | nil => cases h
  | cons u rest ih =>
    rw [depthElements]
    obtain rfl | h := List.mem_cons.mp h
    · exact Nat.le_max_left _ _
    · exact Nat.le_trans (ih h) (Nat.le_max_right _ _)

theorem depth_le_of_mem_members (h : e ∈ members) : e.2.depth ≤ depthMembers members := by
  induction members with
  | nil => cases h
  | cons f rest ih =>
    rw [depthMembers]
    obtain rfl | h := List.mem_cons.mp h
    · exact Nat.le_max_left _ _
    · exact Nat.le_trans (ih h) (Nat.le_max_right _ _)

theorem areSound_iff : areSound elements = true ↔ ∀ v ∈ elements, v.isSound = true := by
  induction elements with
  | nil => simp [areSound]
  | cons u rest ih => simp [areSound, ih]

theorem membersSound_iff : membersSound members = true ↔ ∀ e ∈ members, e.2.isSound = true := by
  induction members with
  | nil => simp [membersSound]
  | cons f rest ih => simp [membersSound, ih]

end Value

namespace Source
variable {src : Source} {elements : List Value} {members : List (String × Value)}

theorem admits_text {room : Nat} {v : Value} :
    (Source.text room).admits v = true ↔ v.depth ≤ room ∧ v.isSound = true := by
  simp [admits]

/-- Where a value with parts is admitted there is room to enter it, and then for its parts. -/
theorem exists_enter {v : Value} {n : Nat} (hdepth : v.depth = n + 1) (h : src.admits v = true) :
    ∃ inner, src.enter = .ok inner ∧ ∀ part : Value, part.depth ≤ n →
      (v.isSound = true → part.isSound = true) → inner.admits part = true := by
  match src with
  | .whole | .table => exact ⟨_, rfl, fun _ _ _ => rfl⟩
  | .text 0 =>
    obtain ⟨hroom, -⟩ := admits_text.mp h
    omega
  | .text (room + 1) =>
    obtain ⟨hroom, hsound⟩ := admits_text.mp h
    refine ⟨.text room, rfl, fun part hpart hparts => admits_text.mpr ⟨?_, hparts hsound⟩⟩
    omega

theorem exists_enter_arr (h : src.admits (.arr elements) = true) :
    ∃ inner, src.enter = .ok inner ∧ ∀ v ∈ elements, inner.admits v = true := by
  obtain ⟨inner, henter, hinner⟩ := exists_enter rfl h
  refine ⟨inner, henter, fun v hv => hinner v (Value.depth_le_of_mem_elements hv) fun hsound => ?_⟩
  exact Value.areSound_iff.mp hsound v hv

theorem exists_enter_obj (h : src.admits (.obj members) = true) :
    ∃ inner, src.enter = .ok inner ∧ ∀ e ∈ members, inner.admits e.2 = true := by
  obtain ⟨inner, henter, hinner⟩ := exists_enter rfl h
  refine ⟨inner, henter, fun e he =>
    hinner e.2 (Value.depth_le_of_mem_members he) fun hsound => ?_⟩
  exact Value.membersSound_iff.mp hsound e he

end Source

namespace Decoder
variable {α : Type}

/-- The value is sound, and every source that admits it gives what it is read as. -/
structure Reads (d : Decoder α) (v : Value) (a : α) : Prop where
  sound : v.isSound = true
  eq_ok : ∀ src : Source, src.admits v = true → d src v = .ok a

/-- A field is written so that it is read again, or left out and what is usual then. -/
inductive Supplies (d : Decoder α) (usual : Option α) : Option Value → α → Prop
  | written {v : Value} {a : α} (h : d.Reads v a) : Supplies d usual (some v) a
  | absent {a : α} (h : usual = some a) : Supplies d usual none a

theorem Supplies.sound {d : Decoder α} {usual : Option α} {o : Option Value} {a : α}
    (h : d.Supplies usual o a) : ∀ v ∈ o, v.isSound = true := by
  cases h with
  | written h =>
    rintro v ⟨⟩
    exact h.sound
  | absent => exact nofun

end Decoder

namespace Form
variable {α : Type} {d : Decoder α} {v : Value} {a : α}

/-! ### Plain values -/

theorem reads_float {x : Float} (h : x.isFinite = true) : float.Reads (.float x) x :=
  ⟨h, fun _ hadmits => if_pos hadmits⟩

theorem reads_string (s : String) : string.Reads (.str s) s := ⟨rfl, fun _ _ => rfl⟩

theorem reads_bool (b : Bool) : bool.Reads (.bool b) b := ⟨rfl, fun _ _ => rfl⟩

theorem reads_index (n : Nat) : index.Reads (.int n) n :=
  ⟨rfl, fun _ _ => by simp [index]⟩

theorem reads_option (h : d.Reads v a) (hv : v ≠ .null) : (option d).Reads v (some a) := by
  refine ⟨h.sound, fun src hadmits => ?_⟩
  have hread := congrArg (some <$> ·) (h.eq_ok src hadmits)
  cases v with
  | null => exact absurd rfl hv
  | _ => exact hread

theorem reads_choice {names : List (String × α)} {s : String} (h : names.lookup s = some a) :
    (choice names).Reads (.str s) a := by
  refine ⟨rfl, fun src _ => ?_⟩
  cases src <;> simp [choice, h]

/-! ### Arrays, records and variants -/

section Array
variable {enc : α → Value} {l : List α}

theorem sound_map (h : ∀ a ∈ l, d.Reads (enc a) a) : (Value.arr (l.map enc)).isSound = true := by
  refine Value.areSound_iff.mpr fun v hv => ?_
  obtain ⟨a, ha, rfl⟩ := List.mem_map.mp hv
  exact (h a ha).sound

/-- Where an array is admitted there is room for it, and each of its elements is read. -/
theorem exists_enter_map (h : ∀ a ∈ l, d.Reads (enc a) a) {src : Source}
    (hadmits : src.admits (.arr (l.map enc)) = true) :
    ∃ inner, src.enter = .ok inner ∧ ∀ a ∈ l, d inner (enc a) = .ok a := by
  obtain ⟨inner, henter, hinner⟩ := Source.exists_enter_arr hadmits
  exact ⟨inner, henter, fun a ha => (h a ha).eq_ok inner (hinner _ (List.mem_map_of_mem ha))⟩

theorem reads_list (h : ∀ a ∈ l, d.Reads (enc a) a) : (list d).Reads (.arr (l.map enc)) l := by
  refine ⟨sound_map h, fun src hadmits => ?_⟩
  obtain ⟨inner, henter, hread⟩ := exists_enter_map h hadmits
  simp only [list, henter, bind, Except.bind]
  -- The source admits the array as a whole; of its elements only the readings are kept.
  clear h hadmits
  induction l with
  | nil => rfl
  | cons a l ih =>
    have hrest := ih fun b hb => hread b (List.mem_cons_of_mem _ hb)
    rw [List.map_cons, List.mapM_cons, hread a List.mem_cons_self, hrest]
    rfl

theorem upTo_map {src : Source} (h : ∀ a ∈ l, d src (enc a) = .ok a) (expected : String)
    (done : Nat) : upTo d src (done + l.length) expected done (l.map enc) = .ok l := by
  induction l generalizing done with
  | nil => simp [upTo]
  | cons a l ih =>
    have hrest := ih (fun b hb => h b (List.mem_cons_of_mem _ hb)) (done + 1)
    rw [Nat.succ_add_eq_add_succ] at hrest
    have hroom : done < done + (l.length + 1) := Nat.lt_add_of_pos_right (Nat.succ_pos _)
    simp only [List.map_cons, upTo, h a List.mem_cons_self, bind, Except.bind, List.length_cons,
      hrest]
    exact if_pos hroom

theorem reads_tuple (h : ∀ a ∈ l, d.Reads (enc a) a) (expected : String) :
    (tuple d l.length expected).Reads (.arr (l.map enc)) l := by
  refine ⟨sound_map h, fun src hadmits => ?_⟩
  obtain ⟨inner, henter, hread⟩ := exists_enter_map h hadmits
  have hall := upTo_map hread expected 0
  rw [Nat.zero_add] at hall
  simp only [tuple, henter, bind, Except.bind, hall]

end Array

/-- Each field that a record is written with is read from it as it was supplied. -/
def Holds (r : Record) (fields : List (String × Option Value)) : Prop :=
  ∀ {β : Type} {key : String} {o : Option Value} {d : Decoder β} {usual : Option β} {b : β}
    (i : Nat), fields[i]? = some (key, o) → d.Supplies usual o b → r.field i key d usual = .ok b

theorem reads_record {name : String} {size : Nat} {parts : Record → Part α}
    {fields : List (String × Option Value)} (hkeys : (fields.map (·.1)).Nodup)
    (hsound : ∀ e ∈ fields, ∀ v ∈ e.2, v.isSound = true)
    (hparts : ∀ r : Record, Holds r fields → parts r = .ok a) :
    (record name size parts).Reads (.obj (written fields)) a := by
  constructor
  · exact Value.membersSound_iff.mpr fun e he => hsound _ (mem_written.mp he) e.2 rfl
  · intro src hadmits
    obtain ⟨inner, henter, hinner⟩ := Source.exists_enter_obj hadmits
    refine record_written henter (fun e he d hd => ?_) (hparts _ ?_)
    · exact absurd (hsound e he _ (Option.mem_def.mpr hd)) Bool.false_ne_true
    · intro β key o d usual b i hfield hsupplies
      have hmem := List.mem_of_getElem? hfield
      cases hsupplies with
      | written h =>
        have hread := h.eq_ok inner (hinner _ (mem_written.mpr hmem))
        exact field_of_mem hkeys hmem hread i usual
      | absent h =>
        rw [h]
        exact field_of_absent hkeys hmem i

theorem supplies_option {o : Option α} {enc : α → Value} (h : ∀ a ∈ o, d.Reads (enc a) a)
    (hnull : ∀ a, enc a ≠ .null) : (option d).Supplies (some none) (o.map enc) o := by
  cases o with
  | none => exact .absent rfl
  | some a => exact .written (reads_option (h a rfl) (hnull a))

theorem variantName_of_lookup {variants : List (String × Decoder α)} {variant : String}
    (h : variants.lookup variant = some d) (src : Source) :
    variantName (variants.map (·.1)) src (.str variant) = .ok variant := by
  have hnames : (variants.map (·.1)).contains variant = true := by
    obtain ⟨front, back, rfl, -⟩ := List.lookup_eq_some_iff.mp h
    simp
  rw [variantName, if_pos hnames]

/-- The tag comes first and names the variant, a record that has no field of that name. -/
theorem reads_tagged {tag name variant : String} {variants : List (String × Decoder α)}
    {rname : String} {size : Nat} {parts : Record → Part α} {fields : List (String × Option Value)}
    (hlookup : variants.lookup variant = some (record rname size parts))
    (hkeys : (tag :: fields.map (·.1)).Nodup)
    (hsound : ∀ e ∈ fields, ∀ v ∈ e.2, v.isSound = true)
    (hparts : ∀ r : Record, Holds r fields → parts r = .ok a) :
    (tagged tag name variants).Reads (.obj ((tag, .str variant) :: written fields)) a := by
  obtain ⟨hmem, hkeys⟩ := List.nodup_cons.mp hkeys
  have htag : ∀ e ∈ written fields, e.1 ≠ tag := fun e he heq =>
    hmem (List.mem_map.mpr ⟨_, mem_written.mp he, heq⟩)
  have h : (record rname size parts).Reads (.obj (written fields)) a :=
    reads_record hkeys hsound hparts
  constructor
  · rw [Value.isSound, Value.membersSound]
    exact h.sound
  · intro src hadmits
    obtain ⟨inner, henter, -⟩ := Source.exists_enter_obj hadmits
    have hrest : ((tag, .str variant) :: written fields).filter (·.1 != tag) = written fields := by
      rw [List.filter_cons_of_neg (by simp), List.filter_eq_self]
      exact fun e he => bne_iff_ne.mpr (htag e he)
    have hname := variantName_of_lookup hlookup inner
    simp only [tagged, henter, find?_cons htag, hname, hadmits, hlookup, hrest, bind, Except.bind,
      List.take_zero, List.all_nil, Bool.not_true, Bool.false_eq_true, if_true, if_false]
    -- The other members have been taken as a whole, and that source admits everything.
    exact h.eq_ok .whole rfl

/-! ### What is not read -/

/-- A part of a record that cannot be read. -/
def Fails {β : Type} (p : Part β) : Prop := ∃ e, p = .error e

section Fails
variable {β : Type} {f : Part (α → β)} {x : Part α}

theorem Fails.seq_left (h : Fails f) (x : Part α) : Fails (f <*> x) := by
  obtain ⟨e, rfl⟩ := h
  cases x with
  | ok b => exact ⟨_, rfl⟩
  | error e' => exact ⟨_, rfl⟩

theorem Fails.seq_right (h : Fails x) (f : Part (α → β)) : Fails (f <*> x) := by
  obtain ⟨e, rfl⟩ := h
  cases f with
  | ok g => exact ⟨_, rfl⟩
  | error e' => exact ⟨_, rfl⟩

theorem Fails.map (h : Fails x) (g : α → β) : Fails (g <$> x) := h.seq_right (pure g)

end Fails

/-- A field that has to be there and is not. -/
theorem fails_field {r : Record} {members : List (String × Value)} (hr : r.shape = .members members)
    {key : String} (h : ∀ e ∈ members, e.1 ≠ key) (i : Nat) (d : Decoder α) :
    Fails (r.field i key d) := by
  have hfind := find?_of_forall_ne h
  rw [Record.field, hr]
  dsimp only
  rw [hfind]
  exact ⟨_, rfl⟩

/-- A list is refused for the reason that all of its elements give that cannot be read. -/
theorem list_error {enc : α → Value} {l : List α} {src inner : Source} {e : DecodeError}
    (henter : src.enter = .ok inner)
    (h : ∀ a ∈ l, d inner (enc a) = .ok a ∨ d inner (enc a) = .error e)
    (hsome : ∃ a ∈ l, d inner (enc a) = .error e) : list d src (.arr (l.map enc)) = .error e := by
  simp only [list, henter, bind, Except.bind]
  induction l with
  | nil => simp at hsome
  | cons a l ih =>
    obtain ⟨ha, hl⟩ := List.forall_mem_cons.mp h
    rw [List.map_cons, List.mapM_cons]
    rcases ha with ha | ha
    · have hrest : ∃ b ∈ l, d inner (enc b) = .error e := by
        obtain ⟨b, hb, hd⟩ := hsome
        obtain rfl | hb := List.mem_cons.mp hb
        · cases ha.symm.trans hd
        · exact ⟨b, hb, hd⟩
      rw [ha, ih hl hrest]
      rfl
    · rw [ha]
      rfl

/-- A variant whose source does not admit it, though it has room for its tag. -/
theorem tagged_not_admitted (name : String) {tag variant : String} {variants : List (String × Decoder α)}
    (hlookup : variants.lookup variant = some d) {members : List (String × Value)}
    (htag : ∀ e ∈ members, e.1 ≠ tag) {src inner : Source} (henter : src.enter = .ok inner)
    (h : src.admits (.obj ((tag, .str variant) :: members)) = false) :
    tagged tag name variants src (.obj ((tag, .str variant) :: members)) = .error .malformed := by
  have hname := variantName_of_lookup hlookup inner
  simp only [tagged, henter, find?_cons htag, hname, h, bind, Except.bind, List.take_zero, List.all_nil,
    Bool.not_true, Bool.false_eq_true, if_false]

theorem record_fails {name : String} {size : Nat} {parts : Record → Part α}
    {members : List (String × Value)} {src inner : Source} (henter : src.enter = .ok inner)
    (h : ∀ r : Record, r.shape = .members members → Fails (parts r)) :
    ∃ e, record name size parts src (.obj members) = .error e := by
  obtain ⟨r, hr⟩ : ∃ r : Record, r = ⟨inner, name, size, .members members⟩ := ⟨_, rfl⟩
  have hparts := h r (congrArg Record.shape hr)
  obtain ⟨e, he⟩ : Fails (r.keys *> parts r) := hparts.seq_right (Function.const Unit id <$> r.keys)
  refine ⟨e.2, ?_⟩
  simp only [record, henter, bind, Except.bind]
  rw [← hr, Record.finish, he]

end Form
end Toolpath
