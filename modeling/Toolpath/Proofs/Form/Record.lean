import Mathlib.Data.List.Nodup
import Toolpath.Form.Cut

/-!
Records that are written with the names of their fields, each name once. Reading one of them finds
what was written for each field, and the usual value where a field was left out.
-/
namespace Toolpath.Form
open Decode

/-- The members of a record some of whose fields may be left out. -/
def written (fields : List (String × Option Value)) : List (String × Value) :=
  fields.flatMap fun (key, v) => member key v

variable {fields : List (String × Option Value)} {key : String} {v : Value}

theorem mem_written : (key, v) ∈ written fields ↔ (key, some v) ∈ fields := by
  constructor
  · intro h
    obtain ⟨⟨k, o⟩, hmem, hm⟩ := List.mem_flatMap.mp h
    obtain ⟨v', rfl, hv⟩ := Option.map_eq_some_iff.mp (Option.mem_toList.mp hm)
    obtain ⟨rfl, rfl⟩ := Prod.mk.inj hv
    exact hmem
  · exact fun h => List.mem_flatMap.mpr ⟨_, h, Option.mem_toList.mpr rfl⟩

/-- No name is written that the record does not have, and none twice. -/
theorem keys_written_sublist (fields : List (String × Option Value)) :
    ((written fields).map (·.1)).Sublist (fields.map (·.1)) := by
  induction fields with
  | nil => exact .slnil
  | cons e fields ih =>
    obtain ⟨key, o⟩ := e
    cases o with
    | none => exact ih.cons key
    | some v => exact ih.cons_cons key

theorem findIdx?_of_forall_ne {m : List (String × Value)} (h : ∀ e ∈ m, e.1 ≠ key) :
    m.findIdx? (·.1 == key) = none :=
  List.findIdx?_eq_none_iff.mpr fun e he => beq_false_of_ne (h e he)

theorem find?_of_forall_ne {m : List (String × Value)} (h : ∀ e ∈ m, e.1 ≠ key) :
    Record.find? key m = none := by
  rw [Record.find?, findIdx?_of_forall_ne h]

theorem find?_append {front back : List (String × Value)} (hfront : ∀ e ∈ front, e.1 ≠ key)
    (hback : ∀ e ∈ back, e.1 ≠ key) :
    Record.find? key (front ++ (key, v) :: back) = some (v, front.length, none) := by
  have hplace : (front ++ (key, v) :: back).findIdx? (·.1 == key) = some front.length := by
    rw [List.findIdx?_append, findIdx?_of_forall_ne hfront, List.findIdx?_cons,
      beq_self_eq_true, if_pos rfl]
    simp
  have hrest : (front ++ (key, v) :: back).drop (front.length + 1) = back := by simp
  rw [Record.find?, hplace]
  dsimp only
  rw [hrest, findIdx?_of_forall_ne hback, List.getElem?_append_right (Nat.le_refl _), Nat.sub_self]
  rfl

theorem find?_cons {members : List (String × Value)} (h : ∀ e ∈ members, e.1 ≠ key) :
    Record.find? key ((key, v) :: members) = some (v, 0, none) := by
  have hfront : ∀ e ∈ ([] : List (String × Value)), e.1 ≠ key := nofun
  exact find?_append hfront h

/-- Under distinct names, what stands before and after a field has other names. -/
theorem exists_split (hkeys : (fields.map (·.1)).Nodup) {o : Option Value}
    (h : (key, o) ∈ fields) : ∃ front back, written fields = front ++ (member key o ++ back) ∧
      (∀ e ∈ front, e.1 ≠ key) ∧ ∀ e ∈ back, e.1 ≠ key := by
  obtain ⟨front, back, rfl⟩ := List.append_of_mem h
  rw [List.map_append, List.map_cons, List.nodup_append, List.nodup_cons] at hkeys
  obtain ⟨-, ⟨hback, -⟩, hfront⟩ := hkeys
  have hname : ∀ {l : List (String × Option Value)} {e : String × Value}, e ∈ written l →
      e.1 ∈ l.map (·.1) := fun he => List.mem_map.mpr ⟨_, mem_written.mp he, rfl⟩
  refine ⟨written front, written back, by simp [written], fun e he => ?_, fun e he heq => ?_⟩
  · exact hfront e.1 (hname he) key List.mem_cons_self
  · exact hback (heq ▸ hname he)

theorem exists_find?_written (hkeys : (fields.map (·.1)).Nodup) (h : (key, some v) ∈ fields) :
    ∃ place, Record.find? key (written fields) = some (v, place, none) := by
  obtain ⟨front, back, hsplit, hfront, hback⟩ := exists_split hkeys h
  exact ⟨front.length, by rw [hsplit]; exact find?_append hfront hback⟩

section Field
variable {α : Type} {src : Source} {name : String} {size : Nat} {d : Decoder α} {a : α}

theorem field_of_mem (hkeys : (fields.map (·.1)).Nodup) (h : (key, some v) ∈ fields)
    (hd : d src v = .ok a) (i : Nat) (absent : Option α) :
    (⟨src, name, size, .members (written fields)⟩ : Record).field i key d absent = .ok a := by
  obtain ⟨place, hfind⟩ := exists_find?_written hkeys h
  simp only [Record.field, hfind, hd]
  rfl

theorem field_of_absent (hkeys : (fields.map (·.1)).Nodup) (h : (key, none) ∈ fields) (i : Nat) :
    (⟨src, name, size, .members (written fields)⟩ : Record).field i key d (some a) = .ok a := by
  obtain ⟨front, back, hsplit, hfront, hback⟩ := exists_split hkeys h
  have hfind : Record.find? key (written fields) = none := by
    refine find?_of_forall_ne fun e he => ?_
    rw [hsplit] at he
    exact (List.mem_append.mp he).elim (hfront e) (hback e)
  simp only [Record.field, hfind]
  rfl

/-- A field that is written if it has a value. Without one it is read as usual. -/
theorem field_of_option {o : Option α} {enc : α → Value} {dec : Decoder (Option α)}
    (hkeys : (fields.map (·.1)).Nodup) (h : (key, o.map enc) ∈ fields)
    (hdec : ∀ a ∈ o, dec src (enc a) = .ok (some a)) (i : Nat) (usual : Option α) :
    (⟨src, name, size, .members (written fields)⟩ : Record).field i key dec (some usual) =
      .ok (o.or usual) := by
  cases o with
  | none => exact field_of_absent hkeys h i
  | some a => exact field_of_mem hkeys h (hdec a rfl) i _

/-- A field that cannot be read. -/
theorem field_of_mem_error (hkeys : (fields.map (·.1)).Nodup) (h : (key, some v) ∈ fields)
    {e : DecodeError} (hd : d src v = .error e) (i : Nat) (absent : Option α) :
    ∃ place, (⟨src, name, size, .members (written fields)⟩ : Record).field i key d absent =
      .error (place, e) := by
  obtain ⟨place, hfind⟩ := exists_find?_written hkeys h
  refine ⟨place, ?_⟩
  simp only [Record.field, hfind, hd]
  rfl

/-- No key of a record has a defect. -/
theorem keys_written (hsound : ∀ e ∈ fields, ∀ d, e.2 ≠ some (.defect d)) :
    (⟨src, name, size, .members (written fields)⟩ : Record).keys = .ok () := by
  simp only [Record.keys]
  rw [List.findIdx?_eq_none_iff.mpr]
  intro e he
  obtain ⟨k, v⟩ := e
  cases v with
  | defect d => exact absurd rfl (hsound _ (mem_written.mp he) d)
  | _ => rfl

/-- A record is read once each of its fields is, if its source leaves room for it. -/
theorem record_written {inner : Source} {parts : Record → Part α} (henter : src.enter = .ok inner)
    (hsound : ∀ e ∈ fields, ∀ d, e.2 ≠ some (.defect d))
    (hparts : parts ⟨inner, name, size, .members (written fields)⟩ = .ok a) :
    record name size parts src (.obj (written fields)) = .ok a := by
  simp only [record, henter, bind, Except.bind, hparts, Record.finish, keys_written hsound]
  rfl

/-- A record is refused for the reason that one of its fields gives. -/
theorem record_written_error {inner : Source} {parts : Record → Part α} {e : Nat × DecodeError}
    (henter : src.enter = .ok inner) (hsound : ∀ e ∈ fields, ∀ d, e.2 ≠ some (.defect d))
    (hparts : parts ⟨inner, name, size, .members (written fields)⟩ = .error e) :
    record name size parts src (.obj (written fields)) = .error e.2 := by
  simp only [record, henter, bind, Except.bind, hparts, Record.finish, keys_written hsound]
  rfl

end Field
end Toolpath.Form
