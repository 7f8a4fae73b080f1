import Toolpath.Document.Json.Reader
import Toolpath.Proofs.Document.Json.Tokens

/-!
JSON texts read back as the values that they were written for, provided that each binary number
does. The text of a value is split into its tokens, and the tokens are put together again.
-/
namespace Toolpath.Json

mutual
/-- A value whose text says everything about it. Dates, arrays of tables and defects are written
like other values, and whole numbers beyond 64 bits are read as binary ones. -/
def Written : Value → Prop
  | .null | .bool _ | .str _ => True
  | .int n => -0x8000000000000000 ≤ n ∧ n < 0x10000000000000000
  | .float x => NumeralOf (floatText x).toList (.float x)
  | .arr elements => ElementsWritten elements
  | .obj members => MembersWritten members
  | .moment _ | .tables _ | .defect _ => False

def ElementsWritten : List Value → Prop
  | [] => True
  | v :: r => Written v ∧ ElementsWritten r

def MembersWritten : List (String × Value) → Prop
  | [] => True
  | (_, v) :: r => Written v ∧ MembersWritten r
end

theorem membersWritten_iff {members : List (String × Value)} :
    MembersWritten members ↔ ∀ e ∈ members, Written e.2 := by
  induction members with
  | nil => simp [MembersWritten]
  | cons e members ih => simp [MembersWritten, ih]

theorem elementsWritten_iff {elements : List Value} :
    ElementsWritten elements ↔ ∀ v ∈ elements, Written v := by
  induction elements with
  | nil => simp [ElementsWritten]
  | cons v elements ih => simp [ElementsWritten, ih]

mutual
/-- The tokens of a value. Each part of an array or object is led by a comma, but for the first. -/
def tokensOf : Value → List Token
  | .arr elements => .openArray :: ((elementTokens elements).drop 1 ++ [.closeArray])
  | .obj members => .openObject :: ((memberTokens members).drop 1 ++ [.closeObject])
  | v => [.leaf v]

def elementTokens : List Value → List Token
  | [] => []
  | v :: r => .comma :: (tokensOf v ++ elementTokens r)

def memberTokens : List (String × Value) → List Token
  | [] => []
  | (k, v) :: r => .comma :: .leaf (.str k) :: .colon :: (tokensOf v ++ memberTokens r)
end

/-! ### Reading tokens -/

/-- In front of its first element an array takes a value as it does in front of the others. -/
theorem firstElement_tokensOf (v : Value) (r : List Token) (stack : List Frame) :
    (tokensOf v ++ r).foldlM State.step (.firstElement stack) =
      (tokensOf v ++ r).foldlM State.step (.value (.array [] :: stack)) := by
  cases v <;> rfl

mutual
theorem foldlM_tokensOf {v : Value} (hv : Written v) (r : List Token) (stack : List Frame) :
    (tokensOf v ++ r).foldlM State.step (.value stack) =
      r.foldlM State.step (.after v stack) := by
  match v with
  | .null | .bool _ | .int _ | .float _ | .str _ => rfl
  | .arr [] => rfl
  | .arr (v :: rest) =>
    obtain ⟨hfirst, hrest⟩ := hv
    change (tokensOf v ++ elementTokens rest ++ [Token.closeArray] ++ r).foldlM State.step
      (.firstElement stack) = _
    rw [List.append_assoc, List.append_assoc, firstElement_tokensOf, foldlM_tokensOf hfirst,
      State.after, foldlM_elementTokens hrest]
    change r.foldlM State.step (.after (.arr (rest.reverse ++ [v]).reverse) stack) = _
    rw [List.reverse_append, List.reverse_reverse, List.reverse_singleton, List.singleton_append]
  | .obj [] => rfl
  | .obj ((k, v) :: rest) =>
    obtain ⟨hfirst, hrest⟩ := hv
    change (tokensOf v ++ memberTokens rest ++ [Token.closeObject] ++ r).foldlM State.step
      (.value (.object [] (some k) :: stack)) = _
    rw [List.append_assoc, List.append_assoc, foldlM_tokensOf hfirst, State.after,
      foldlM_memberTokens hrest]
    change r.foldlM State.step (.after (.obj (rest.reverse ++ [(k, v)]).reverse) stack) = _
    rw [List.reverse_append, List.reverse_reverse, List.reverse_singleton, List.singleton_append]

theorem foldlM_elementTokens {elements : List Value} (h : ElementsWritten elements)
    (r : List Token) (done : List Value) (stack : List Frame) :
    (elementTokens elements ++ r).foldlM State.step (.nextElement done stack) =
      r.foldlM State.step (.nextElement (elements.reverse ++ done) stack) := by
  match elements with
  | [] => rfl
  | v :: rest =>
    obtain ⟨hv, hrest⟩ := h
    change (tokensOf v ++ elementTokens rest ++ r).foldlM State.step
      (.value (.array done :: stack)) = _
    rw [List.append_assoc, foldlM_tokensOf hv, State.after, foldlM_elementTokens hrest]
    simp

theorem foldlM_memberTokens {members : List (String × Value)} (h : MembersWritten members)
    (r : List Token) (done : List (String × Value)) (stack : List Frame) :
    (memberTokens members ++ r).foldlM State.step (.nextMember done stack) =
      r.foldlM State.step (.nextMember (members.reverse ++ done) stack) := by
  match members with
  | [] => rfl
  | (k, v) :: rest =>
    obtain ⟨hv, hrest⟩ := h
    change (tokensOf v ++ memberTokens rest ++ r).foldlM State.step
      (.value (.object done (some k) :: stack)) = _
    rw [List.append_assoc, foldlM_tokensOf hv, State.after, foldlM_memberTokens hrest]
    simp [member]
end

/-! ### Splitting texts -/

/-- Parts that are each led by a comma and a gap. -/
def led (gap : List Char) (parts : List String) : List Char :=
  parts.flatMap fun p => ',' :: (gap ++ p.toList)

/-- What stands between the marks and the parts of a block below `indent`. -/
def gapBelow (indent : String) : List Char := '\n' :: (indent.toList ++ [' ', ' '])

theorem toList_intercalate (gap p : String) (parts : List String) :
    (String.intercalate ("," ++ gap) (p :: parts)).toList =
      p.toList ++ led gap.toList parts := by
  rw [String.toList_intercalate]
  induction parts generalizing p with
  | nil => simp [led]
  | cons q parts ih =>
    have hrest := ih q
    simp only [List.map_cons] at hrest ⊢
    rw [List.intercalate_cons_cons, hrest]
    simp [led]

theorem toList_block (indent left right p : String) (parts : List String) :
    (block indent left right (p :: parts)).toList =
      left.toList ++ (gapBelow indent ++ (p.toList ++ (led (gapBelow indent) parts ++
        '\n' :: (indent.toList ++ right.toList)))) := by
  have hgap : ("\n" ++ indent ++ "  ").toList = gapBelow indent := by simp [gapBelow]
  simp only [block, List.isEmpty_cons, Bool.false_eq_true, if_false, String.toList_append,
    toList_intercalate, hgap, List.append_assoc]
  simp [gapBelow]

def IsBlank (s : List Char) : Prop := ∀ c ∈ s, c = ' ' ∨ c = '\n'

theorem isBlank_gapBelow {indent : String} (h : IsBlank indent.toList) :
    IsBlank (gapBelow indent) := by
  intro c hc
  simp only [gapBelow, List.mem_cons, List.mem_append, List.not_mem_nil, or_false] at hc
  rcases hc with rfl | hc | rfl | rfl
  · exact .inr rfl
  · exact h c hc
  · exact .inl rfl
  · exact .inl rfl

theorem isBlank_indent {indent : String} (h : IsBlank indent.toList) :
    IsBlank (indent ++ "  ").toList := by
  rw [String.toList_append]
  exact fun c hc => isBlank_gapBelow h c (List.mem_cons_of_mem _ hc)

theorem ends_led {gap r : List Char} (hr : Ends r) (parts : List String) :
    Ends (led gap parts ++ r) := by
  cases parts with
  | nil => exact hr
  | cons p parts =>
    rintro c hc
    obtain rfl := Option.some.inj hc
    rfl

theorem ends_newline (r : List Char) : Ends ('\n' :: r) := by
  rintro c hc
  obtain rfl := Option.some.inj hc
  rfl

variable {r : List Char} {ts : List Token} {indent : String}

/-- Words are values of their own. -/
def words : List (String × Value) :=
  [("null", .null), ("true", .bool true), ("false", .bool false)]

theorem Scans.word (h : Scans r ts) {w : String} {v : Value} (hw : (w, v) ∈ words) :
    Scans (w.toList ++ r) (.leaf v :: ts) := by
  intro fuel hfuel
  have hstep : ∀ e ∈ words, ∀ n, scanTokens (n + 1) (e.1.toList ++ r) =
      (scanTokens n r).map (.leaf e.2 :: ·) := by
    simp only [words, List.forall_mem_cons]
    exact ⟨fun n => rfl, fun n => rfl, fun n => rfl, fun _ h => nomatch h⟩
  have hlength : ∀ e ∈ words, 0 < e.1.toList.length := by decide
  rw [List.length_append] at hfuel
  have hpos : 0 < w.toList.length := hlength _ hw
  obtain ⟨n, rfl⟩ := Nat.exists_eq_add_of_le' (show 1 ≤ fuel by omega)
  exact (hstep _ hw n).trans (by rw [h n (by omega), Option.map_some])

/-- A block between two marks, given what its parts add in front of any text that ends them. -/
theorem Scans.block (h : Scans r ts) {left right : String} {a b : Char} {t u : Token}
    (hleft : left.toList = [a]) (hright : right.toList = [b]) (ha : (a, t) ∈ marks)
    (hb : (b, u) ∈ marks) (hindent : IsBlank indent.toList) {p : String} {parts : List String}
    {inner : List Token} (hparts : ∀ {r : List Char} {ts : List Token}, Ends r → Scans r ts →
      Scans (p.toList ++ (led (gapBelow indent) parts ++ r)) (inner ++ ts)) :
    Scans ((Json.block indent left right (p :: parts)).toList ++ r)
      (t :: (inner ++ [u]) ++ ts) := by
  have hend : Scans ('\n' :: (indent.toList ++ b :: r)) (u :: ts) :=
    ((h.mark hb).blanks hindent).blank (.inr rfl)
  have hinner := ((hparts (ends_newline _) hend).blanks (isBlank_gapBelow hindent)).mark ha
  rw [toList_block, hleft, hright]
  simpa using hinner

theorem Scans.emptyBlock (h : Scans r ts) {left right : String} {a b : Char} {t u : Token}
    (hleft : left.toList = [a]) (hright : right.toList = [b]) (ha : (a, t) ∈ marks)
    (hb : (b, u) ∈ marks) : Scans ((left ++ right).toList ++ r) (t :: u :: ts) := by
  rw [String.toList_append, hleft, hright]
  exact (h.mark hb).mark ha

/-- A key and its value. -/
theorem Scans.member (h : Scans r ts) (k : String) :
    Scans ((Json.quote k ++ ": ").toList ++ r) (.leaf (.str k) :: .colon :: ts) := by
  have hcolon : (':', Token.colon) ∈ marks := by simp [marks]
  rw [String.toList_append, List.append_assoc]
  exact ((h.blank (c := ' ') (.inl rfl)).mark hcolon).quote k

mutual
theorem scans_prettyAt {v : Value} (hv : Written v) {indent : String}
    (hindent : IsBlank indent.toList) {r : List Char} (hr : Ends r) {ts : List Token}
    (h : Scans r ts) : Scans ((prettyAt indent v).toList ++ r) (tokensOf v ++ ts) := by
  have hopenArray : ('[', Token.openArray) ∈ marks := by simp [marks]
  have hcloseArray : (']', Token.closeArray) ∈ marks := by simp [marks]
  have hopenObject : ('\x7b', Token.openObject) ∈ marks := by simp [marks]
  have hcloseObject : ('\x7d', Token.closeObject) ∈ marks := by simp [marks]
  match v with
  | .null => exact h.word (w := "null") (by simp [words])
  | .bool true => exact h.word (w := "true") (by simp [words])
  | .bool false => exact h.word (w := "false") (by simp [words])
  | .int n => exact h.numeral (numeralOf_intRepr hv.1 hv.2) hr
  | .float x => exact h.numeral hv hr
  | .str s => exact h.quote s
  | .arr [] =>
    exact h.emptyBlock (rfl : "[".toList = ['[']) (rfl : "]".toList = [']']) hopenArray hcloseArray
  | .arr (v :: rest) =>
    obtain ⟨hfirst, hrest⟩ := hv
    refine h.block (rfl : "[".toList = ['[']) (rfl : "]".toList = [']']) hopenArray hcloseArray
      hindent fun {_ ts} hr h => ?_
    change Scans _ (tokensOf v ++ elementTokens rest ++ ts)
    rw [List.append_assoc]
    exact scans_prettyAt hfirst (isBlank_indent hindent) (ends_led hr _)
      (scans_prettyElements hrest (isBlank_indent hindent) (isBlank_gapBelow hindent) hr h)
  | .obj [] =>
    exact h.emptyBlock (rfl : "\x7b".toList = ['\x7b']) (rfl : "\x7d".toList = ['\x7d'])
      hopenObject hcloseObject
  | .obj ((k, v) :: rest) =>
    obtain ⟨hfirst, hrest⟩ := hv
    refine h.block (rfl : "\x7b".toList = ['\x7b']) (rfl : "\x7d".toList = ['\x7d'])
      hopenObject hcloseObject hindent fun {_ ts} hr h => ?_
    change Scans _ (.leaf (.str k) :: .colon :: (tokensOf v ++ memberTokens rest ++ ts))
    rw [String.toList_append, List.append_assoc, List.append_assoc]
    exact (scans_prettyAt hfirst (isBlank_indent hindent) (ends_led hr _)
      (scans_prettyMembers hrest (isBlank_indent hindent) (isBlank_gapBelow hindent) hr h)).member k

theorem scans_prettyElements {elements : List Value} (hv : ElementsWritten elements)
    {indent : String} (hindent : IsBlank indent.toList) {gap : List Char} (hgap : IsBlank gap)
    {r : List Char} (hr : Ends r) {ts : List Token} (h : Scans r ts) :
    Scans (led gap (prettyElements indent elements) ++ r) (elementTokens elements ++ ts) := by
  match elements with
  | [] => exact h
  | v :: rest =>
    obtain ⟨hfirst, hrest⟩ := hv
    have hparts := scans_prettyElements hrest hindent hgap hr h
    have hpart := scans_prettyAt hfirst hindent (ends_led hr _) hparts
    have hall := (hpart.blanks hgap).mark (c := ',') (t := .comma) (by simp [marks])
    simpa [prettyElements, led, elementTokens] using hall

theorem scans_prettyMembers {members : List (String × Value)} (hv : MembersWritten members)
    {indent : String} (hindent : IsBlank indent.toList) {gap : List Char} (hgap : IsBlank gap)
    {r : List Char} (hr : Ends r) {ts : List Token} (h : Scans r ts) :
    Scans (led gap (prettyMembers indent members) ++ r) (memberTokens members ++ ts) := by
  match members with
  | [] => exact h
  | (k, v) :: rest =>
    obtain ⟨hfirst, hrest⟩ := hv
    have hparts := scans_prettyMembers hrest hindent hgap hr h
    have hpart := (scans_prettyAt hfirst hindent (ends_led hr _) hparts).member k
    have hall := (hpart.blanks hgap).mark (c := ',') (t := .comma) (by simp [marks])
    simpa [prettyMembers, led, memberTokens] using hall
end

/-- What is written for a value reads as the value. -/
theorem read?_pretty {v : Value} (hv : Written v) : read? (pretty v) = some v := by
  have htokens : tokens? (pretty v).toList = some (tokensOf v) := by
    have hindent : IsBlank "".toList := fun c hc => nomatch hc
    have hend : Ends [] := fun c hc => nomatch hc
    have h := scans_prettyAt hv hindent hend scans_nil
    rw [List.append_nil, List.append_nil] at h
    exact h.tokens?
  have hfold : (tokensOf v).foldlM State.step (.value []) = some (.complete v) := by
    have h := foldlM_tokensOf hv [] []
    rwa [List.append_nil] at h
  simp only [read?, htokens, hfold, Option.bind_eq_bind, Option.bind_some]

end Toolpath.Json
