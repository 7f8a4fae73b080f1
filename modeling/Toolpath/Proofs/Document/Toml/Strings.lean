import Toolpath.Document.Toml.Reader
import Toolpath.Document.Toml.Writer

/-! Strings of TOML texts read back from whichever of their forms they are written in. -/
namespace Toolpath.Toml

/-- A text that is read as a value at the end of a line. -/
structure ValueText (t : List Char) (v : Value) : Prop where
  starts : ∀ c ∈ t.head?, isSpace c = false
  value : ∀ (n : Nat) (r : List Char),
    scanValue (n + 1) maxDepth (t ++ '\n' :: r) = some (v, '\n' :: r)

variable {c : Char} {s r done : List Char} {multiline : Bool} {q : Nat}

/-! ### Escapes -/

theorem hexDigit?_upperHex : ∀ n < 16, hexDigit? (upperHex n) = some n := by decide

theorem codePoint?_upperHex (h : c.toNat < 0x20 ∨ c.toNat = 0x7f) :
    codePoint? ['0', '0', upperHex (c.toNat / 16), upperHex (c.toNat % 16)] = some c := by
  have hhigh := hexDigit?_upperHex (c.toNat / 16) (by omega)
  have hlow := hexDigit?_upperHex (c.toNat % 16) (by omega)
  have hzero : hexDigit? '0' = some 0 := rfl
  have hcode : 16 * (c.toNat / 16) + c.toNat % 16 = c.toNat := Nat.div_add_mod _ _
  have hvalid : c.toNat < 0xd800 := by omega
  simp [codePoint?, hhigh, hlow, hzero, hcode, hvalid]

theorem scanBasic_cons (hquote : c ≠ '"') (hslash : c ≠ '\\') (hcontrol : isControl c = false) :
    scanBasic multiline (c :: r) false done = scanBasic multiline r false (c :: done) := by
  have hline : c ≠ '\n' := by
    rintro rfl
    cases hcontrol
  have hreturn : c ≠ '\r' := by
    rintro rfl
    cases hcontrol
  rw [scanBasic.eq_def]
  split <;> simp_all

/-- Whatever is written for a character is read as the character. -/
theorem scanBasic_escape (c : Char) :
    scanBasic multiline (escape multiline c ++ r) false done =
      scanBasic multiline r false (c :: done) := by
  unfold escape
  split
  iterate 4 rfl
  · cases multiline <;> rfl
  iterate 2 rfl
  next hquote hslash _ _ _ _ _ =>
    split
    · next hcode =>
      simp only [List.cons_append, List.nil_append]
      rw [scanBasic, codePoint?_upperHex hcode]
    · next hcode =>
      refine scanBasic_cons hquote hslash ?_
      rw [not_or] at hcode
      simp [isControl, hcode]

/-- Only between tripled quotes a line break stands for itself. -/
theorem escape_cases (multiline : Bool) (c : Char) : (∃ e, escape multiline c = '\\' :: e) ∨
    escape multiline c = [c] ∧ c ≠ '"' ∧ c ≠ '\r' := by
  unfold escape
  split
  iterate 4 exact .inl ⟨_, rfl⟩
  · cases multiline with
    | false => exact .inl ⟨_, rfl⟩
    | true => exact .inr ⟨rfl, by decide, by decide⟩
  iterate 2 exact .inl ⟨_, rfl⟩
  next hquote _ _ _ _ _ hreturn =>
    split
    · exact .inl ⟨_, rfl⟩
    · exact .inr ⟨rfl, hquote, hreturn⟩

theorem exists_escape_eq (multiline : Bool) (c : Char) : ∃ d e, escape multiline c = d :: e ∧
    d ≠ '"' ∧ d ≠ '\r' ∧ (c ≠ '\n' → d ≠ '\n') := by
  rcases escape_cases multiline c with ⟨e, he⟩ | ⟨he, hquote, hreturn⟩
  · exact ⟨'\\', e, he, by decide, by decide, fun _ => by decide⟩
  · exact ⟨c, [], he, hquote, hreturn, id⟩

/-! ### Double quotes -/

theorem basicText_of_ne (h : ¬ (c = '"' ∧ multiline ∧ q < 2)) :
    basicText multiline q (c :: s) = escape multiline c ++ basicText multiline 0 s := if_neg h

theorem scanBasic_single (q : Nat) : scanBasic false (basicText false q s ++ '"' :: '\n' :: r) false
    done = some (String.ofList (done.reverse ++ s), '\n' :: r) := by
  induction s generalizing q done with
  | nil => rw [List.append_nil]; rfl
  | cons c s ih =>
    rw [basicText_of_ne (by simp), List.append_assoc, scanBasic_escape, ih]
    simp

/-- A quote stands for itself where no two others follow. -/
theorem scanBasic_quote (h : ∀ t, r ≠ '"' :: '"' :: t) :
    scanBasic true ('"' :: r) false done = scanBasic true r false ('"' :: done) := by
  rw [scanBasic, if_pos rfl]
  · exact fun t => h _
  · exact fun t => h _

theorem scanBasic_quotes (hq : q ≤ 2) (hc : c ≠ '"') :
    scanBasic true (List.replicate q '"' ++ c :: r) false done =
      scanBasic true (c :: r) false (List.replicate q '"' ++ done) := by
  obtain rfl | rfl | rfl : q = 0 ∨ q = 1 ∨ q = 2 := by omega
  · rfl
  · exact scanBasic_quote (by simp [hc])
  · exact (scanBasic_quote (by simp [hc])).trans (scanBasic_quote (by simp [hc]))

/-- Quotes that have been written but not read yet are read with what follows: up to two of them
may stand in front of the three that end the text. -/
theorem scanBasic_tripled (hq : q ≤ 2) : scanBasic true (List.replicate q '"' ++
      (basicText true q s ++ '"' :: '"' :: '"' :: '\n' :: r)) false done =
    some (String.ofList (done.reverse ++ (List.replicate q '"' ++ s)), '\n' :: r) := by
  induction s generalizing q done with
  | nil =>
    obtain rfl | rfl | rfl : q = 0 ∨ q = 1 ∨ q = 2 := by omega
    -- of the quotes in a row the last three end the text
    · simp [basicText, scanBasic, finish]
    · simp [basicText, scanBasic, finish]
    · simp [basicText, scanBasic, finish]
  | cons c s ih =>
    by_cases hc : c = '"' ∧ true ∧ q < 2
    -- the quote joins the pending ones; anything else has them read first
    · obtain ⟨rfl, -, hlt⟩ := hc
      have hnext := @ih done (q + 1) hlt
      rw [List.replicate_succ', List.append_assoc, List.append_assoc] at hnext
      rw [basicText, if_pos ⟨rfl, rfl, hlt⟩]
      exact hnext
    · obtain ⟨d, e, he, hd, -⟩ := exists_escape_eq true c
      rw [basicText_of_ne hc, List.append_assoc, he, List.cons_append, scanBasic_quotes hq hd,
        ← List.cons_append, ← he, scanBasic_escape]
      have hrest := @ih (c :: (List.replicate q '"' ++ done)) 0 (Nat.zero_le 2)
      rw [List.replicate_zero, List.nil_append, List.nil_append] at hrest
      simp [hrest]

/-! ### Single quotes -/

/-- A character that may stand between single quotes. -/
def MayStand (multiline : Bool) (c : Char) : Prop :=
  isControl c = false ∨ c = '\n' ∧ multiline = true

theorem scanLiteral_cons (hquote : c ≠ '\'') (hc : MayStand multiline c) :
    scanLiteral multiline (c :: r) done = scanLiteral multiline r (c :: done) := by
  have hreturn : c ≠ '\r' := by
    rintro rfl
    rcases hc with h | ⟨h, -⟩ <;> cases h
  rw [scanLiteral, if_neg]
  · rcases hc with hc | ⟨rfl, rfl⟩
    · simp [hc]
    · decide
  · exact fun t h => absurd h hquote
  · exact hquote
  · exact fun t h => absurd h hreturn

theorem scanLiteral_single (hs : ∀ c ∈ s, MayStand false c) (hquote : '\'' ∉ s) :
    scanLiteral false (s ++ '\'' :: '\n' :: r) done =
      some (String.ofList (done.reverse ++ s), '\n' :: r) := by
  induction s generalizing done with
  | nil => rw [List.append_nil]; rfl
  | cons c s ih =>
    obtain ⟨hc, hs⟩ := List.forall_mem_cons.mp hs
    obtain ⟨hne, hquote⟩ := not_or.mp fun h => hquote (List.mem_cons.mpr h)
    rw [List.cons_append, scanLiteral_cons (Ne.symm hne) hc, ih hs hquote]
    simp

/-- The longest run so far and the length of the run that is going on. -/
def countRun (c : Char) (runs : Nat × Nat) (d : Char) : Nat × Nat :=
  if d = c then (max runs.1 (runs.2 + 1), runs.2 + 1) else (runs.1, 0)

theorem longestRun_eq (c : Char) (s : List Char) :
    longestRun c s = (s.foldl (countRun c) (0, 0)).1 := rfl

theorem le_foldl_countRun (c : Char) (runs : Nat × Nat) (s : List Char) :
    runs.1 ≤ (s.foldl (countRun c) runs).1 := by
  induction s generalizing runs with
  | nil => exact Nat.le_refl _
  | cons d s ih =>
    have hstep : runs.1 ≤ (countRun c runs d).1 := by
      unfold countRun
      split
      · exact Nat.le_max_left _ _
      · exact Nat.le_refl _
    exact Nat.le_trans hstep (ih _)

theorem run_lt_foldl_countRun (c : Char) (runs : Nat × Nat) (s : List Char) :
    runs.2 < ((c :: s).foldl (countRun c) runs).1 := by
  have hstep : runs.2 + 1 ≤ (countRun c runs c).1 := by
    rw [countRun, if_pos rfl]
    exact Nat.le_max_right _ _
  exact Nat.le_trans hstep (le_foldl_countRun c _ s)

theorem not_mem_of_longestRun_eq_zero (h : longestRun c s = 0) : c ∉ s := by
  intro hmem
  obtain ⟨front, back, rfl⟩ := List.append_of_mem hmem
  have hrun := run_lt_foldl_countRun c (front.foldl (countRun c) (0, 0)) back
  rw [← List.foldl_append, ← longestRun_eq, h] at hrun
  exact Nat.not_lt_zero _ hrun

theorem scanLiteral_quote (h : ∀ t, r ≠ '\'' :: '\'' :: t) :
    scanLiteral true ('\'' :: r) done = scanLiteral true r ('\'' :: done) := by
  rw [scanLiteral, if_pos rfl]
  exact fun t => h _

theorem scanLiteral_quotes (hq : q ≤ 2) (hc : c ≠ '\'') :
    scanLiteral true (List.replicate q '\'' ++ c :: r) done =
      scanLiteral true (c :: r) (List.replicate q '\'' ++ done) := by
  obtain rfl | rfl | rfl : q = 0 ∨ q = 1 ∨ q = 2 := by omega
  · rfl
  · exact scanLiteral_quote (by simp [hc])
  · exact (scanLiteral_quote (by simp [hc])).trans (scanLiteral_quote (by simp [hc]))

/-- A text without three quotes in a row, of which `q` at its end have not been read yet. -/
theorem scanLiteral_tripled {longest : Nat}
    (hs : ∀ c ∈ s, MayStand true c) (hq : q ≤ 2)
    (hruns : (s.foldl (countRun '\'') (longest, q)).1 ≤ 2) :
    scanLiteral true (List.replicate q '\'' ++ (s ++ '\'' :: '\'' :: '\'' :: '\n' :: r)) done =
      some (String.ofList (done.reverse ++ (List.replicate q '\'' ++ s)), '\n' :: r) := by
  induction s generalizing q longest done with
  | nil =>
    obtain rfl | rfl | rfl : q = 0 ∨ q = 1 ∨ q = 2 := by omega
    · simp [scanLiteral, finish]
    · simp [scanLiteral, finish]
    · simp [scanLiteral, finish]
  | cons c s ih =>
    obtain ⟨hc, hrest⟩ := List.forall_mem_cons.mp hs
    by_cases hquote : c = '\''
    · obtain rfl := hquote
      have hlt : q < 2 := Nat.lt_of_lt_of_le (run_lt_foldl_countRun '\'' (longest, q) s) hruns
      have hnext := @ih done (q + 1) _ hrest hlt hruns
      rw [List.replicate_succ', List.append_assoc, List.append_assoc] at hnext
      exact hnext
    · rw [List.foldl_cons, countRun, if_neg hquote] at hruns
      rw [List.cons_append, scanLiteral_quotes hq hquote, scanLiteral_cons hquote hc]
      have hnext := @ih (c :: (List.replicate q '\'' ++ done)) 0 _ hrest (Nat.zero_le 2) hruns
      rw [List.replicate_zero, List.nil_append, List.nil_append] at hnext
      simp [hnext]

/-! ### The forms of strings -/

theorem valueText_string {quote : Char} (hquote : quote = '"' ∨ quote = '\'') {t : String}
    (h : ∀ r, scanString (quote :: (s ++ '\n' :: r)) = some (t, '\n' :: r)) :
    ValueText (quote :: s) (.str t) where
  starts c hc := by
    obtain rfl := Option.some.inj hc
    rcases hquote with rfl | rfl <;> rfl
  value n r := by
    rcases hquote with rfl | rfl <;> rw [List.cons_append, scanValue, h] <;> rfl

theorem valueText_basic (t : String) :
    ValueText ("\"" ++ String.ofList (basicText false 0 t.toList) ++ "\"").toList (.str t) := by
  have htext : ("\"" ++ String.ofList (basicText false 0 t.toList) ++ "\"").toList =
      '"' :: (basicText false 0 t.toList ++ ['"']) := by simp
  rw [htext]
  refine valueText_string (.inl rfl) fun r => ?_
  have hopen : scanString ('"' :: (basicText false 0 t.toList ++ '"' :: '\n' :: r)) =
      scanBasic false (basicText false 0 t.toList ++ '"' :: '\n' :: r) false [] := by
    cases t.toList with
    | nil => rfl
    | cons c s =>
      obtain ⟨d, e, he, hd, -⟩ := exists_escape_eq false c
      rw [basicText_of_ne (by simp), he, List.cons_append, List.cons_append, scanString]
      exact fun t h => hd (List.cons.inj h).1
  rw [List.append_assoc, List.singleton_append, hopen, scanBasic_single]
  simp

theorem valueText_literal {t : String} (hs : ∀ c ∈ t.toList, MayStand false c)
    (hquote : '\'' ∉ t.toList) : ValueText ("'" ++ t ++ "'").toList (.str t) := by
  have htext : ("'" ++ t ++ "'").toList = '\'' :: (t.toList ++ ['\'']) := by simp
  rw [htext]
  refine valueText_string (.inr rfl) fun r => ?_
  have hopen : scanString ('\'' :: (t.toList ++ '\'' :: '\n' :: r)) =
      scanLiteral false (t.toList ++ '\'' :: '\n' :: r) [] := by
    cases hlist : t.toList with
    | nil => rfl
    | cons c s =>
      rw [List.cons_append, scanString]
      exact fun t h => hquote (hlist ▸ (List.cons.inj h).1 ▸ List.mem_cons_self)
  rw [List.append_assoc, List.singleton_append, hopen, scanLiteral_single hs hquote]
  simp

theorem newline?_eq_none (h : ∀ c ∈ s.head?, c ≠ '\n' ∧ c ≠ '\r') : newline? s = none := by
  cases s with
  | nil => rfl
  | cons c s =>
    obtain ⟨hfeed, hreturn⟩ := h c rfl
    rw [newline?.eq_def]
    split <;> simp_all

/-- Several lines start below their opening quotes. -/
theorem afterOpening_eq {lines : Bool}
    (h : lines = false → ∀ c ∈ s.head?, c ≠ '\n' ∧ c ≠ '\r') :
    afterOpening ((if lines then "\n" else "").toList ++ s) = s := by
  cases lines with
  | true => rfl
  | false => exact congrArg (Option.getD · s) (newline?_eq_none (h rfl))

theorem head_basicText (hs : '\n' ∉ s) :
    ∀ c ∈ (basicText true 0 s ++ '"' :: r).head?, c ≠ '\n' ∧ c ≠ '\r' := by
  intro d hd
  cases s with
  | nil =>
    obtain rfl := Option.some.inj hd
    exact ⟨by decide, by decide⟩
  | cons c s =>
    by_cases hc : c = '"' ∧ true ∧ 0 < 2
    · rw [basicText, if_pos ⟨hc.1, rfl, by decide⟩] at hd
      obtain rfl := Option.some.inj hd
      rw [hc.1]
      exact ⟨by decide, by decide⟩
    · obtain ⟨first, e, he, -, hreturn, hfeed⟩ := exists_escape_eq true c
      rw [basicText_of_ne hc, he] at hd
      obtain rfl := Option.some.inj hd
      exact ⟨hfeed fun h => hs (h ▸ List.mem_cons_self), hreturn⟩

theorem valueText_tripledBasic (t : String) : ValueText
    ("\"\"\"" ++ (if t.toList.contains '\n' then "\n" else "") ++
      String.ofList (basicText true 0 t.toList) ++ "\"\"\"").toList (.str t) := by
  have htext : ("\"\"\"" ++ (if t.toList.contains '\n' then "\n" else "") ++
      String.ofList (basicText true 0 t.toList) ++ "\"\"\"").toList =
      '"' :: '"' :: '"' :: ((if t.toList.contains '\n' then "\n" else "").toList ++
        (basicText true 0 t.toList ++ ['"', '"', '"'])) := by simp
  rw [htext]
  refine valueText_string (.inl rfl) fun r => ?_
  have hopen : afterOpening ((if t.toList.contains '\n' then "\n" else "").toList ++
      (basicText true 0 t.toList ++ '"' :: '"' :: '"' :: '\n' :: r)) =
      basicText true 0 t.toList ++ '"' :: '"' :: '"' :: '\n' :: r := by
    refine afterOpening_eq fun hlines => head_basicText ?_
    simpa using hlines
  have hread : scanBasic true (List.replicate 0 '"' ++ (basicText true 0 t.toList ++
      '"' :: '"' :: '"' :: '\n' :: r)) false [] = _ := scanBasic_tripled (Nat.zero_le 2)
  simp only [List.cons_append, List.append_assoc, List.nil_append, scanString, hopen]
  rw [List.replicate_zero, List.nil_append, List.nil_append] at hread
  rw [hread]
  simp

theorem valueText_tripledLiteral {t : String} (hs : ∀ c ∈ t.toList, MayStand true c)
    (hquotes : longestRun '\'' t.toList ≤ 2) : ValueText
    ("'''" ++ (if t.toList.contains '\n' then "\n" else "") ++ t ++ "'''").toList (.str t) := by
  have htext : ("'''" ++ (if t.toList.contains '\n' then "\n" else "") ++ t ++ "'''").toList =
      '\'' :: '\'' :: '\'' :: ((if t.toList.contains '\n' then "\n" else "").toList ++
        (t.toList ++ ['\'', '\'', '\''])) := by simp
  rw [htext]
  refine valueText_string (.inr rfl) fun r => ?_
  have hopen : afterOpening ((if t.toList.contains '\n' then "\n" else "").toList ++
      (t.toList ++ '\'' :: '\'' :: '\'' :: '\n' :: r)) =
      t.toList ++ '\'' :: '\'' :: '\'' :: '\n' :: r := by
    refine afterOpening_eq fun hlines c hc => ?_
    have hfeed : '\n' ∉ t.toList := by simpa using hlines
    cases hlist : t.toList with
    | nil =>
      rw [hlist] at hc
      obtain rfl := Option.some.inj hc
      exact ⟨by decide, by decide⟩
    | cons d s =>
      rw [hlist] at hc hfeed hs
      obtain rfl := Option.some.inj hc
      refine ⟨fun h => hfeed (h ▸ List.mem_cons_self), ?_⟩
      rintro rfl
      rcases hs '\r' List.mem_cons_self with h | ⟨h, -⟩ <;> cases h
  have hread : scanLiteral true (List.replicate 0 '\'' ++ (t.toList ++
      '\'' :: '\'' :: '\'' :: '\n' :: r)) [] = _ := scanLiteral_tripled hs (Nat.zero_le 2) hquotes
  simp only [List.cons_append, List.append_assoc, List.nil_append, scanString, hopen]
  rw [List.replicate_zero, List.nil_append, List.nil_append] at hread
  rw [hread]
  simp

/-- Only characters that have a form of their own keep a string out of single quotes. -/
theorem mayStand_of_codes
    (h : (s.any fun c => (c.toNat < 0x20 && c != '\t' && c != '\n') || c.toNat == 0x7f) = false) :
    ∀ c ∈ s, MayStand true c := by
  intro c hc
  by_cases hfeed : c = '\n'
  · exact .inr ⟨hfeed, rfl⟩
  · have hcode := List.any_eq_false.mp h c hc
    refine .inl ?_
    simpa [isControl, hfeed] using hcode

/-- A string is read from the form that is chosen for it. -/
theorem valueText_quote (t : String) : ValueText (quote t).toList (.str t) := by
  unfold quote
  dsimp only
  split
  · exact valueText_basic t
  split
  · next h =>
    simp only [Bool.and_eq_true, Bool.not_eq_true', decide_eq_true_eq] at h
    obtain ⟨⟨hcodes, hsingles⟩, hlines⟩ := h
    refine valueText_literal (fun c hc => ?_) (not_mem_of_longestRun_eq_zero hsingles)
    rcases mayStand_of_codes hcodes c hc with hcontrol | ⟨rfl, -⟩
    · exact .inl hcontrol
    · rw [List.contains_iff_mem.mpr hc] at hlines
      cases hlines
  split
  · exact valueText_tripledBasic t
  split
  · next h =>
    simp only [Bool.and_eq_true, Bool.not_eq_true', decide_eq_true_eq] at h
    exact valueText_tripledLiteral (mayStand_of_codes h.1) h.2
  split
  · next hlines =>
    have htripled := valueText_tripledBasic t
    rwa [if_pos hlines] at htripled
  · exact valueText_basic t

end Toolpath.Toml
