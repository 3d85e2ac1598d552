import Downlevel.Proofs.Expression.Lexer
import Mathlib.Tactic.SplitIfs

/-!
# `Proofs.Expression.StringLiteral`: string literals read back

A text is written between double quotes, and what could end the literal or the line is escaped: with a sign
for the frequent characters, with four digits for the others. Reading goes by the rules of ES5 literals, which
know nothing of how a text is written. What is read is the text.
-/

namespace Downlevel.Expression

open Text

/-! ## Reading -/

/-- The signs that stand for a character behind a backslash. -/
def signEscapes : List (Char × Char) :=
  [('"', '"'), ('\\', '\\'), ('n', '\n'), ('r', '\r'), ('t', '\t'), ('b', Char.ofNat 8), ('f', Char.ofNat 12)]

/-- Does a line end here? -/
def isLineEnd (c : Char) : Bool := c = '\n' || c = '\r' || c.toNat = 0x2028 || c.toNat = 0x2029

/-- The characters that are denoted between the quotes of a literal. -/
def readCharacters : List Char → Option (List Char)
  | [] => some []
  | '\\' :: 'u' :: a :: b :: c :: d :: rest => do
    let n ← digits? 16 0 [a, b, c, d]
    if n.isValidChar then (readCharacters rest).map (Char.ofNat n :: ·) else none
  | '\\' :: sign :: rest => do
    let c ← signEscapes.lookup sign
    (readCharacters rest).map (c :: ·)
  | c :: rest => if c = '\\' ∨ c = '"' ∨ isLineEnd c then none else (readCharacters rest).map (c :: ·)

/-- The characters that a literal denotes. -/
def readLiteral : List Char → Option (List Char)
  | '"' :: rest => if rest.getLast? = some '"' then readCharacters rest.dropLast else none
  | _ => none

/-- The characters that stand for themselves: backslashes are left out, and what they escape. -/
def unescaped : List Char → List Char
  | [] => []
  | '\\' :: _ :: rest => unescaped rest
  | c :: rest => c :: unescaped rest

/-! ## Writing -/

/-- How a character can be written in a literal. -/
inductive Denotes (c : Char) : List Char → Prop
  | self (h : c ≠ '\\' ∧ c ≠ '"') : Denotes c [c]
  | sign {x : Char} (h : signEscapes.lookup x = some c) : Denotes c ['\\', x]
  | unit {ds : List Char} (hlength : ds.length = 4) (hplain : ∀ d ∈ ds, d ≠ '\\' ∧ d ≠ '"')
      (h : digits? 16 0 ds = some c.toNat) : Denotes c ('\\' :: 'u' :: ds)

/-- No character is a control or ends the line. -/
def AreVisible (cs : List Char) : Prop := ∀ c ∈ cs, 0x20 ≤ c.toNat ∧ isLineEnd c = false

instance (cs : List Char) : Decidable (AreVisible cs) := inferInstanceAs (Decidable (∀ _ ∈ cs, _))

theorem unitEscape_spec {c : Char} (h : c.toNat ∈ List.range 0x20 ++ [0x2028, 0x2029]) :
    Denotes c (unitEscape c).toList ∧ AreVisible (unitEscape c).toList := by
  have htable : ∀ n ∈ List.range 0x20 ++ [0x2028, 0x2029], n < 0x10000 ∧ (hexDigits 4 n).toList.length = 4 ∧
      (∀ d ∈ (hexDigits 4 n).toList, d ≠ '\\' ∧ d ≠ '"') ∧ digits? 16 0 (hexDigits 4 n).toList = some n ∧
      AreVisible ('\\' :: 'u' :: (hexDigits 4 n).toList) := by
    decide +kernel
  obtain ⟨hlt, hlength, hplain, hdigits, hvisible⟩ := htable _ h
  have htext : (unitEscape c).toList = '\\' :: 'u' :: (hexDigits 4 c.toNat).toList := by
    rw [unitEscape, if_pos hlt, String.toList_append]
    rfl
  rw [htext]
  exact ⟨.unit hlength hplain hdigits, hvisible⟩

theorem quoteChar_spec (c : Char) :
    Denotes c (quoteChar .lineSafe c).toList ∧ AreVisible (quoteChar .lineSafe c).toList := by
  have hsign : ∀ p ∈ signEscapes, Denotes p.2 ['\\', p.1] ∧ AreVisible ['\\', p.1] := by
    have htable : signEscapes.all fun p => signEscapes.lookup p.1 = some p.2 ∧ AreVisible ['\\', p.1] := by
      decide
    intro p hp
    have hp := of_decide_eq_true (List.all_eq_true.mp htable p hp)
    exact ⟨.sign hp.1, hp.2⟩
  have hcode : ∀ n, c.toNat = n → c = Char.ofNat n := by
    rintro n rfl
    exact (Char.ofNat_toNat c).symm
  unfold quoteChar
  split_ifs with hquote hslash hn hr ht hb hf hcontrol hline
  · exact hquote ▸ hsign ('"', '"') (by decide)
  · exact hslash ▸ hsign ('\\', '\\') (by decide)
  · exact hn ▸ hsign ('n', '\n') (by decide)
  · exact hr ▸ hsign ('r', '\r') (by decide)
  · exact ht ▸ hsign ('t', '\t') (by decide)
  · exact hcode 8 hb ▸ hsign ('b', Char.ofNat 8) (by decide)
  · exact hcode 12 hf ▸ hsign ('f', Char.ofNat 12) (by decide)
  · exact unitEscape_spec (List.mem_append_left _ (List.mem_range.mpr hcontrol))
  · refine unitEscape_spec (List.mem_append_right _ ?_)
    simpa [QuoteStyle.escapes] using hline
  · rw [Char.toString, String.toList_singleton]
    refine ⟨.self ⟨hslash, hquote⟩, List.forall_mem_singleton.mpr ⟨by omega, ?_⟩⟩
    simpa [isLineEnd, hn, hr, QuoteStyle.escapes] using hline

/-! ## Reading what is written -/

section

variable {c : Char} {cs rest : List Char} (h : Denotes c cs)

include h

theorem Denotes.readCharacters (hvisible : AreVisible cs) :
    readCharacters (cs ++ rest) = (readCharacters rest).map (c :: ·) := by
  cases h with
  | self h =>
    have hline := (hvisible c List.mem_cons_self).2
    simp [Expression.readCharacters, h, hline]
  | @sign x h =>
    have hx : x ≠ 'u' := by
      rintro rfl
      cases h
    simp [Expression.readCharacters, h, hx]
  | @unit ds hlength hplain h =>
    rcases ds with _ | ⟨a, _ | ⟨b, _ | ⟨d, _ | ⟨e, _ | ⟨x, ds⟩⟩⟩⟩⟩ <;> simp at hlength
    have hvalid : c.toNat.isValidChar := c.valid
    simp [Expression.readCharacters, h, hvalid, Char.ofNat_toNat]

/-- A quote is always escaped. -/
theorem Denotes.unescaped (hquote : '"' ∉ unescaped rest) : '"' ∉ unescaped (cs ++ rest) := by
  cases h with
  | self h => simpa [Expression.unescaped, h, h.2.symm] using hquote
  | sign h => simpa [Expression.unescaped] using hquote
  | @unit ds hlength hplain h =>
    have hdigits : Expression.unescaped (ds ++ rest) = ds ++ Expression.unescaped rest := by
      clear hlength h
      induction ds with
      | nil => rfl
      | cons d ds ih =>
        obtain ⟨hd, hds⟩ := List.forall_mem_cons.mp hplain
        simp [Expression.unescaped, hd, ih hds]
    show '"' ∉ Expression.unescaped (ds ++ rest)
    rw [hdigits, List.mem_append]
    exact fun h => h.elim (fun h => (hplain _ h).2 rfl) hquote

end

theorem quoteChars_spec (cs : List Char) :
    readCharacters (quoteChars .lineSafe cs).toList = some cs ∧ AreVisible (quoteChars .lineSafe cs).toList ∧
      '"' ∉ unescaped (quoteChars .lineSafe cs).toList := by
  induction cs with
  | nil => exact ⟨rfl, List.forall_mem_nil _, List.not_mem_nil⟩
  | cons c cs ih =>
    obtain ⟨hread, hvisible, hquote⟩ := ih
    obtain ⟨hdenotes, hchar⟩ := quoteChar_spec c
    rw [quoteChars, String.toList_append]
    refine ⟨?_, List.forall_mem_append.mpr ⟨hchar, hvisible⟩, hdenotes.unescaped hquote⟩
    rw [hdenotes.readCharacters hchar, hread]
    rfl

/-- **A string literal reads back as the text that it was written for.** It starts and ends with a quote;
between them every quote is escaped, and there is no control and no end of a line. -/
theorem readLiteral_quoteString (s : String) :
    readLiteral (quoteString s).toList = some s.toList ∧
      ∃ body, (quoteString s).toList = '"' :: body ++ ['"'] ∧ '"' ∉ unescaped body ∧
        ∀ c ∈ body, 0x20 ≤ c.toNat ∧ c ≠ '\n' ∧ c ≠ '\r' ∧ c.toNat ≠ 0x2028 ∧ c.toNat ≠ 0x2029 := by
  obtain ⟨hread, hvisible, hquote⟩ := quoteChars_spec s.toList
  have htext : (quoteString s).toList = '"' :: (quoteChars .lineSafe s.toList).toList ++ ['"'] := by
    rw [quoteString, quote, String.toList_append, String.toList_append]
    rfl
  refine ⟨?_, _, htext, hquote, fun c hc => ?_⟩
  · rw [htext]
    simp [readLiteral, hread]
  · obtain ⟨hlow, hline⟩ := hvisible c hc
    simp [isLineEnd] at hline
    exact ⟨hlow, by simpa [and_assoc] using hline⟩

end Downlevel.Expression
