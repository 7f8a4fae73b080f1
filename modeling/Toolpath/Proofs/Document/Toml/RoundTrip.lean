import Toolpath.Proofs.Document.Toml.Numbers

/-!
TOML texts of tables read back as the tables that they were written for, provided that each binary
number does.
-/
namespace Toolpath.Toml

/-- Reading the lines of a text turns some members into others, as soon as the fuel covers its
characters. -/
def Reads (path : List String) (m : Members) (s : List Char) (result : Members) : Prop :=
  ∀ fuel, s.length < fuel → readLines fuel path m s = some result

/-- A key that needs no quotes. -/
structure IsBare (key : String) : Prop where
  nonempty : key.toList ≠ []
  chars : ∀ c ∈ key.toList, isKeyChar c

theorem reads_nil (path : List String) (m : Members) : Reads path m [] m := by
  intro fuel hfuel
  obtain ⟨n, rfl⟩ := Nat.exists_eq_add_of_le' hfuel
  rfl

theorem endLine?_newline (r : List Char) : endLine? ('\n' :: r) = some r := rfl

variable {path : List String} {m result : Members} {s r : List Char}

theorem Reads.newline (h : Reads path m r result) : Reads path m ('\n' :: r) result := by
  intro fuel hfuel
  obtain ⟨n, rfl⟩ := Nat.exists_eq_add_of_le' (Nat.le_trans (Nat.succ_pos _) hfuel)
  have hstep : readLines (n + 1) path m ('\n' :: r) = readLines n path m r := rfl
  rw [hstep, h n (Nat.lt_of_succ_lt_succ hfuel)]

/-! ### Keys -/

theorem scanKeyPart_bare {key : String} (hkey : IsBare key) {c : Char} (hc : isKeyChar c = false) :
    scanKeyPart (key.toList ++ c :: r) = some (key, c :: r) := by
  have htake : (key.toList ++ c :: r).takeWhile isKeyChar = key.toList := by
    rw [List.takeWhile_append_of_pos hkey.chars, List.takeWhile_cons_of_neg (by simp [hc]),
      List.append_nil]
  have hne : key.toList.isEmpty = false := List.isEmpty_eq_false_iff.mpr hkey.nonempty
  have hquote : ∀ q s, isKeyChar q = false → key.toList ++ c :: r ≠ q :: s := by
    intro q s hq h
    obtain ⟨k, ks, hk⟩ := List.exists_cons_of_ne_nil hkey.nonempty
    rw [hk, List.cons_append] at h
    have := hkey.chars k (hk ▸ List.mem_cons_self)
    rw [(List.cons.inj h).1, hq] at this
    cases this
  unfold scanKeyPart
  split
  · next h => exact absurd h (hquote _ _ rfl)
  · next h => exact absurd h (hquote _ _ rfl)
  · simp only [htake, hne, Bool.false_eq_true, if_false, String.ofList_toList, List.drop_left]

theorem skipSpaces_eq_self (h : ∀ c ∈ s.head?, isSpace c = false) : skipSpaces s = s := by
  cases s with
  | nil => rfl
  | cons c r => exact List.dropWhile_cons_of_neg (by simp [h c rfl])

/-- What a text that starts with a bare key does not start with. -/
theorem IsBare.head {key : String} (hkey : IsBare key) {c : Char}
    (hc : c ∈ (key.toList ++ r).head?) : isKeyChar c := by
  obtain ⟨k, ks, hk⟩ := List.exists_cons_of_ne_nil hkey.nonempty
  rw [hk] at hc
  obtain rfl := Option.some.inj hc
  exact hkey.chars k (hk ▸ List.mem_cons_self)

theorem isSpace_of_isKeyChar {c : Char} (h : isKeyChar c) : isSpace c = false := by
  by_contra hspace
  rcases Bool.or_eq_true_iff.mp (Bool.of_not_eq_false hspace) with hc | hc <;>
    · rw [eq_of_beq hc] at h
      cases h

/-- A bare key alone, up to a mark that is not a dot. -/
theorem scanKey_bare {key : String} (hkey : IsBare key) {c mark : Char} {rest : List Char}
    (hc : isKeyChar c = false) (hskip : skipSpaces (c :: r) = mark :: rest) (hmark : mark ≠ '.') :
    scanKey (key.toList ++ c :: r) = some ([key], mark :: rest) := by
  have hfront : skipSpaces (key.toList ++ c :: r) = key.toList ++ c :: r :=
    skipSpaces_eq_self fun c hc => isSpace_of_isKeyChar (hkey.head hc)
  have hparts : ∀ n, scanKeyParts (n + 1) (key.toList ++ c :: r) =
      some ([key], mark :: rest) := by
    intro n
    simp [scanKeyParts, hfront, scanKeyPart_bare hkey hc, hskip, hmark]
  have hlength : (key.toList ++ c :: r).length = key.toList.length + r.length + 1 := by
    simp [Nat.add_assoc]
  rw [scanKey, hlength, hparts]
  rfl

theorem scanKeySign_bare {key : String} (hkey : IsBare key)
    (hr : ∀ c ∈ r.head?, isSpace c = false) :
    scanKeySign (key.toList ++ ' ' :: '=' :: ' ' :: r) = some ([key], r) := by
  have hkeys : scanKey (key.toList ++ ' ' :: '=' :: ' ' :: r) = some ([key], '=' :: ' ' :: r) :=
    scanKey_bare hkey rfl rfl (by decide)
  have hskip : skipSpaces (' ' :: r) = r := skipSpaces_eq_self hr
  simp [scanKeySign, hkeys, hskip]

/-! ### Lines -/

/-- A line that starts with the character of a bare key holds a member. -/
theorem readLines_member {c : Char} (hc : isKeyChar c) (n : Nat) :
    readLines (n + 1) path m (c :: s) =
      scanKeySign (c :: s) >>= fun (key, t) => scanValue t.length maxDepth t >>= fun (v, r) =>
        within (assign (.value v) key) path m >>= fun m' =>
          endLine? r >>= fun r => readLines n path m' r := by
  have hskip : skipSpaces (c :: s) = c :: s :=
    skipSpaces_eq_self fun d hd => Option.some.inj hd ▸ isSpace_of_isKeyChar hc
  have hne : c ≠ '[' ∧ c ≠ '#' ∧ c ≠ '\n' ∧ c ≠ '\r' := by
    refine ⟨?_, ?_, ?_, ?_⟩ <;>
      · rintro rfl
        cases hc
  obtain ⟨hbracket, hcomment, hfeed, hreturn⟩ := hne
  rw [readLines, hskip]
  simp [hbracket, hcomment, hfeed, hreturn]

/-- A member on a line of its own. -/
theorem Reads.member {key : String} (hkey : IsBare key) {t : List Char} {v : Value}
    (ht : ValueText t v) {m' : Members}
    (hm : within (assign (.value v) [key]) path m = some m') (h : Reads path m' r result) :
    Reads path m (key.toList ++ ' ' :: '=' :: ' ' :: (t ++ '\n' :: r)) result := by
  intro fuel hfuel
  obtain ⟨n, rfl⟩ := Nat.exists_eq_add_of_le' (Nat.le_trans (Nat.succ_pos _) hfuel)
  have hrest : r.length < n := by
    simp only [List.length_append, List.length_cons] at hfuel
    omega
  have hvalue : ∀ c ∈ (t ++ '\n' :: r).head?, isSpace c = false := by
    cases t with
    | nil =>
      rintro c hc
      obtain rfl := Option.some.inj hc
      rfl
    | cons c t => exact ht.starts
  have hlength : (t ++ '\n' :: r).length = t.length + r.length + 1 := by simp [Nat.add_assoc]
  obtain ⟨k, ks, hk⟩ := List.exists_cons_of_ne_nil hkey.nonempty
  have hchar : isKeyChar k := hkey.chars k (hk ▸ List.mem_cons_self)
  have hline : readLines (n + 1) path m (k :: (ks ++ ' ' :: '=' :: ' ' :: (t ++ '\n' :: r))) = _ :=
    readLines_member hchar n
  rw [← List.cons_append, ← hk, scanKeySign_bare hkey hvalue] at hline
  simp only [hline, Option.bind_eq_bind, Option.bind_some, hlength, ht.value, hm, endLine?_newline,
    h n hrest]

/-- The header of a table. -/
theorem Reads.header {name : String} (hname : IsBare name) {m' : Members}
    (hm : openPath openTable [name] m = some m') (h : Reads [name] m' r result) :
    Reads path m ('[' :: (name.toList ++ ']' :: '\n' :: r)) result := by
  intro fuel hfuel
  obtain ⟨n, rfl⟩ := Nat.exists_eq_add_of_le' (Nat.le_trans (Nat.succ_pos _) hfuel)
  have hrest : r.length < n := by
    simp only [List.length_append, List.length_cons] at hfuel
    omega
  have hkey : scanKey (name.toList ++ ']' :: '\n' :: r) = some ([name], ']' :: '\n' :: r) :=
    scanKey_bare hname rfl rfl (by decide)
  obtain ⟨k, ks, hk⟩ := List.exists_cons_of_ne_nil hname.nonempty
  have hbracket : k ≠ '[' := by
    rintro rfl
    cases hname.chars '[' (hk ▸ List.mem_cons_self)
  rw [hk, List.cons_append] at hkey ⊢
  rw [readLines]
  simp [skipSpaces, isSpace, hbracket, hkey, hm, endLine?_newline, h n hrest]

/-! ### Tables -/

theorem alter_of_not_mem {key : String} {f : Option Node → Option Node} {done : Members}
    (h : key ∉ done.map (·.1)) : alter key f done = (f none).map fun n => done ++ [(key, n)] := by
  induction done with
  | nil => rfl
  | cons e done ih =>
    obtain ⟨hne, hrest⟩ := not_or.mp fun h' => h (List.mem_cons.mpr h')
    rw [alter, if_neg (Ne.symm hne), ih hrest, Option.map_map]
    rfl

theorem alter_last {key : String} {f : Option Node → Option Node} {done : Members} {n : Node}
    (h : key ∉ done.map (·.1)) : alter key f (done ++ [(key, n)]) =
      (f (some n)).map fun n => done ++ [(key, n)] := by
  induction done with
  | nil => exact if_pos rfl
  | cons e done ih =>
    obtain ⟨hne, hrest⟩ := not_or.mp fun h' => h (List.mem_cons.mpr h')
    rw [List.cons_append, alter, if_neg (Ne.symm hne), ih hrest, Option.map_map]
    rfl

/-- The open table, which is the last one, takes a value under a new key. -/
theorem within_assign {name key : String} {v : Value} {done inner : Members}
    (hname : name ∉ done.map (·.1)) (hkey : key ∉ inner.map (·.1)) :
    within (assign (.value v) [key]) [name] (done ++ [(name, .table .header inner)]) =
      some (done ++ [(name, .table .header (inner ++ [(key, .value v)]))]) := by
  have hassign : assign (.value v) [key] inner = some (inner ++ [(key, .value v)]) :=
    alter_of_not_mem hkey
  rw [within, alter_last hname]
  simp only [within, hassign, Option.map_some]

theorem openPath_new {name : String} {done : Members} (hname : name ∉ done.map (·.1)) :
    openPath openTable [name] done = some (done ++ [(name, .table .header [])]) := by
  have hne : ∀ e ∈ done, e.1 ≠ name := fun e he heq => hname (List.mem_map.mpr ⟨e, he, heq⟩)
  have hlookup : done.lookup name = none :=
    List.lookup_eq_none_iff.mpr fun e he => bne_iff_ne.mpr (hne e he).symm
  have hfilter : done.filter (·.1 != name) = done :=
    List.filter_eq_self.mpr fun e he => bne_iff_ne.mpr (hne e he)
  simp only [openPath, List.getLast?_singleton, List.dropLast_singleton, within, openTable,
    hlookup, hfilter]

/-! ### Documents -/

/-- The node that a table with the given members becomes. -/
def tableOf (members : List (String × Value)) : Node :=
  .table .header (members.map fun (k, v) => (k, .value v))

/-- A table whose members can be read from their lines. -/
structure Table (members : List (String × Value)) : Prop where
  keys : (members.map (·.1)).Nodup
  bare : ∀ e ∈ members, IsBare e.1
  values : ∀ e ∈ members, Written e.2

theorem writeMembers_cons {key text : String} {v : Value} {members : List (String × Value)}
    (h : writeMembers ((key, v) :: members) = some text) : ∃ t rest, inline v = some t ∧
      writeMembers members = some rest ∧ text = key ++ " = " ++ t ++ "\n" ++ rest := by
  rw [writeMembers, List.mapM_cons] at h
  obtain ⟨lines, hlines, htext⟩ := Option.bind_eq_some_iff.mp h
  obtain ⟨line, hline, hlines⟩ := Option.bind_eq_some_iff.mp hlines
  obtain ⟨rest, hrest, hcons⟩ := Option.bind_eq_some_iff.mp hlines
  obtain ⟨t, ht, hline⟩ := Option.bind_eq_some_iff.mp hline
  obtain rfl := Option.some.inj hcons
  obtain rfl := Option.some.inj hline
  obtain rfl := Option.some.inj htext
  refine ⟨t, String.join rest, ht, ?_, by simp⟩
  rw [writeMembers, hrest]
  rfl

theorem reads_writeMembers {name text : String} {done inner : Members}
    {members : List (String × Value)} (htext : writeMembers members = some text)
    (hname : name ∉ done.map (·.1)) (hkeys : (inner.map (·.1) ++ members.map (·.1)).Nodup)
    (hbare : ∀ e ∈ members, IsBare e.1)
    (hvalues : ∀ e ∈ members, Written e.2)
    (h : Reads [name] (done ++ [(name, .table .header
      (inner ++ members.map fun (k, v) => (k, .value v)))]) r result) :
    Reads [name] (done ++ [(name, .table .header inner)]) (text.toList ++ r) result := by
  induction members generalizing inner text with
  | nil =>
    obtain rfl : "" = text := Option.some.inj htext
    simpa using h
  | cons e members ih =>
    obtain ⟨key, v⟩ := e
    obtain ⟨hkey, hbare⟩ := List.forall_mem_cons.mp hbare
    obtain ⟨hvalue, hvalues⟩ := List.forall_mem_cons.mp hvalues
    obtain ⟨t, rest, hinline, hrest, rfl⟩ := writeMembers_cons htext
    have hfresh : key ∉ inner.map (·.1) := fun hmem =>
      (List.nodup_append.mp hkeys).2.2 key hmem key List.mem_cons_self rfl
    have hmembers : Reads [name] (done ++ [(name, .table .header (inner ++ [(key, .value v)]))])
        (rest.toList ++ r) result :=
      ih hrest (by simpa using hkeys) hbare hvalues (by simpa using h)
    have htext := valueText_of_written hvalue hinline
    have hline := hmembers.member hkey htext (within_assign hname hfresh)
    simpa using hline

theorem reads_writeSection {name text : String} {done : Members} {members : List (String × Value)}
    (htext : writeSection (name, .obj members) = some text) (hbare : IsBare name)
    (hname : name ∉ done.map (·.1)) (ht : Table members)
    (h : Reads [name] (done ++ [(name, tableOf members)]) r result) :
    Reads path done (text.toList ++ r) result := by
  obtain ⟨lines, hlines, htext⟩ := Option.bind_eq_some_iff.mp htext
  obtain rfl := Option.some.inj htext
  have hmembers : Reads [name] (done ++ [(name, .table .header [])]) (lines.toList ++ r) result :=
    reads_writeMembers hlines hname ht.keys ht.bare ht.values h
  have hsection : Reads path done _ result := hmembers.header hbare (openPath_new hname)
  simpa using hsection

/-- Tables one after another, each below a header of its own. -/
theorem reads_sections {sections : List (String × List (String × Value))} {texts : List String}
    {done : Members}
    (htexts : sections.mapM (fun (name, members) => writeSection (name, .obj members)) = some texts)
    (hnames : (done.map (·.1) ++ sections.map (·.1)).Nodup)
    (hbare : ∀ e ∈ sections, IsBare e.1) (ht : ∀ e ∈ sections, Table e.2) :
    Reads path done (String.intercalate "\n" texts).toList
      (done ++ sections.map fun (name, members) => (name, tableOf members)) := by
  -- `done` holds the tables that have been read, so that the next one is always new
  induction sections generalizing done texts path with
  | nil =>
    obtain rfl := Option.some.inj htexts
    simpa using reads_nil path done
  | cons e sections ih =>
    obtain ⟨name, members⟩ := e
    obtain ⟨hfirst, hbare⟩ := List.forall_mem_cons.mp hbare
    obtain ⟨htable, ht⟩ := List.forall_mem_cons.mp ht
    rw [List.mapM_cons] at htexts
    obtain ⟨text, htext, htexts⟩ := Option.bind_eq_some_iff.mp htexts
    obtain ⟨rest, hrest, hcons⟩ := Option.bind_eq_some_iff.mp htexts
    obtain rfl := Option.some.inj hcons
    have hname : name ∉ done.map (·.1) := fun hmem =>
      (List.nodup_append.mp hnames).2.2 name hmem name List.mem_cons_self rfl
    have hsections : Reads [name] (done ++ [(name, tableOf members)]) _ _ :=
      ih hrest (by simpa using hnames) hbare ht
    have hresult : done ++ ((name, members) :: sections).map (fun (name, members) =>
        (name, tableOf members)) = done ++ [(name, tableOf members)] ++
          sections.map fun (name, members) => (name, tableOf members) := by simp
    rw [hresult]
    cases rest with
    | nil => simpa using reads_writeSection htext hfirst hname htable hsections
    | cons next rest =>
      have hall : Reads path done _ _ :=
        reads_writeSection htext hfirst hname htable hsections.newline
      simpa [String.intercalate_cons_cons] using hall

theorem membersToValue_map (sections : List (String × List (String × Value))) :
    membersToValue (sections.map fun (name, members) => (name, tableOf members)) =
      sections.map fun (name, members) => (name, .obj members) := by
  have hvalues : ∀ members : List (String × Value),
      membersToValue (members.map fun (k, v) => (k, .value v)) = members := by
    intro members
    induction members with
    | nil => rfl
    | cons e members ih => rw [List.map_cons, membersToValue, Node.toValue, ih]
  induction sections with
  | nil => rfl
  | cons e sections ih =>
    rw [List.map_cons, List.map_cons, membersToValue, ih, tableOf, Node.toValue, hvalues]

/-- No text starts with a byte order mark. -/
theorem head?_intercalate {sections : List (String × List (String × Value))}
    {texts : List String} (htexts : sections.mapM (fun (name, members) =>
      writeSection (name, .obj members)) = some texts) :
    ∀ c ∈ (String.intercalate "\n" texts).toList.head?, c = '[' := by
  cases sections with
  | nil =>
    obtain rfl := Option.some.inj htexts
    exact fun c hc => nomatch hc
  | cons e sections =>
    rw [List.mapM_cons] at htexts
    obtain ⟨text, htext, htexts⟩ := Option.bind_eq_some_iff.mp htexts
    obtain ⟨rest, -, hcons⟩ := Option.bind_eq_some_iff.mp htexts
    obtain ⟨lines, -, htext⟩ := Option.bind_eq_some_iff.mp htext
    obtain rfl := Option.some.inj hcons
    obtain rfl := Option.some.inj htext
    intro c hc
    cases rest <;> simpa [String.intercalate_cons_cons, eq_comm] using hc

/-- What is written for tables of members reads as the same tables. -/
theorem read?_write? {sections : List (String × List (String × Value))} {text : String}
    (htext : write? (.obj (sections.map fun (name, members) => (name, .obj members))) = some text)
    (hnames : (sections.map (·.1)).Nodup) (hbare : ∀ e ∈ sections, IsBare e.1)
    (ht : ∀ e ∈ sections, Table e.2) :
    read? text = some (.obj (sections.map fun (name, members) => (name, .obj members))) := by
  obtain ⟨texts, htexts, htext⟩ := Option.bind_eq_some_iff.mp htext
  obtain rfl := Option.some.inj htext
  rw [List.mapM_map] at htexts
  have hlines : Reads [] [] _ _ := reads_sections htexts (by simpa using hnames) hbare ht
  have hread := hlines _ (Nat.lt_succ_self _)
  have hvalue : read? (String.intercalate "\n" texts) =
      (readLines ((String.intercalate "\n" texts).toList.length + 1) [] []
        (String.intercalate "\n" texts).toList).map fun m => .obj (membersToValue m) := by
    have hhead := head?_intercalate htexts
    cases htext : (String.intercalate "\n" texts).toList with
    | nil => simp only [read?, htext]
    | cons c r =>
      obtain rfl : c = '[' := hhead c (htext ▸ rfl)
      simp [read?, htext]
  rw [hvalue, hread, Option.map_some, List.nil_append, membersToValue_map]

/-! ### Writing -/

theorem exists_mapM_eq_some {β : Type} {f : β → Option String} {l : List β}
    (h : ∀ b ∈ l, ∃ t, f b = some t) : ∃ texts, l.mapM f = some texts := by
  refine ⟨l.map fun b => (f b).getD "", mapM_eq_some_map fun b hb => ?_⟩
  obtain ⟨t, ht⟩ := h b hb
  rw [ht, Option.getD_some]

/-- Tables are written if each of their members is. -/
theorem exists_write?_eq_some {sections : List (String × List (String × Value))}
    (h : ∀ e ∈ sections, ∀ f ∈ e.2, ∃ t, inline f.2 = some t) : ∃ text,
      write? (.obj (sections.map fun (name, members) => (name, .obj members))) = some text := by
  have hsections : ∀ e ∈ sections, ∃ text, writeSection (e.1, .obj e.2) = some text := by
    intro e he
    have hlines : ∀ f ∈ e.2, ∃ line, (do
        some (f.1 ++ " = " ++ (← inline f.2) ++ "\n") : Option String) = some line := by
      intro f hf
      obtain ⟨t, ht⟩ := h e he f hf
      exact ⟨f.1 ++ " = " ++ t ++ "\n", by rw [ht]; rfl⟩
    obtain ⟨lines, hlines⟩ := exists_mapM_eq_some hlines
    refine ⟨"[" ++ e.1 ++ "]\n" ++ String.join lines, ?_⟩
    simp only [writeSection, writeMembers, hlines]
    rfl
  obtain ⟨texts, htexts⟩ := exists_mapM_eq_some (List.forall_mem_map.mpr hsections)
  refine ⟨String.intercalate "\n" texts, ?_⟩
  rw [write?, htexts]
  rfl

end Toolpath.Toml
