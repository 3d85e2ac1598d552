import Downlevel.Proofs.Tree.Objects
import Downlevel.Tree.Shown
import Mathlib.Tactic.IntervalCases

/-!
# `Proofs.Text.Glyph`: following one character through texts

A character outside ASCII stands in no keyword, no punctuation and no number. Where it does not stand in
the texts of a tree, it does not stand in anything that is written from them.
-/

namespace Downlevel

/-- A character outside ASCII. -/
structure Glyph where
  char : Char
  notAscii : 128 ≤ char.toNat

/-- Is a text plain ASCII? -/
def isAscii (s : String) : Bool := s.toList.all fun c => decide (c.toNat < 128)

namespace Glyph

variable {g : Glyph}

/-- The glyph does not stand in the text. -/
def Lacks (g : Glyph) (s : String) : Prop := g.char ∉ s.toList

/-! ## Texts -/

theorem not_mem_of_ascii {cs : List Char} (h : ∀ c ∈ cs, c.toNat < 128) : g.char ∉ cs := by
  intro hmem
  have hlow := h g.char hmem
  have hhigh := g.notAscii
  omega

theorem toNat_lt_of_isAscii {s : String} (h : isAscii s) : ∀ c ∈ s.toList, c.toNat < 128 :=
  fun c hc => of_decide_eq_true (List.all_eq_true.mp h c hc)

@[simp] theorem lacks_of_isAscii {s : String} (h : isAscii s) : g.Lacks s :=
  not_mem_of_ascii (toNat_lt_of_isAscii h)

@[simp] theorem lacks_append {s t : String} : g.Lacks (s ++ t) ↔ g.Lacks s ∧ g.Lacks t := by
  simp only [Lacks, String.toList_append, List.mem_append, not_or]

theorem lacks_ofList {cs : List Char} : g.Lacks (String.ofList cs) ↔ g.char ∉ cs := by
  rw [Lacks, String.toList_ofList]

theorem lacks_toString {c : Char} : g.Lacks c.toString ↔ g.char ≠ c := by
  simp [Lacks]

theorem lacks_ite {p : Prop} [Decidable p] {s t : String} (hs : g.Lacks s) (ht : g.Lacks t) :
    g.Lacks (if p then s else t) := by
  split
  · exact hs
  · exact ht

theorem lacks_joinWith {separator : String} {texts : List String} (hseparator : g.Lacks separator)
    (h : ∀ s ∈ texts, g.Lacks s) : g.Lacks (Text.joinWith separator texts) := by
  induction texts with
  | nil => exact lacks_of_isAscii rfl
  | cons s rest ih =>
    have hs := h s List.mem_cons_self
    have hrest := ih fun u hu => h u (List.mem_cons_of_mem _ hu)
    cases rest with
    | nil => exact hs
    | cons u us => exact lacks_append.mpr ⟨lacks_append.mpr ⟨hs, hseparator⟩, hrest⟩

/-! ## Numbers -/

theorem toNat_digitChar_lt (n : Nat) : (Nat.digitChar n).toNat < 128 := by
  by_cases h : n < 16
  · interval_cases n <;> decide
  · have hstar : Nat.digitChar n = '*' := by
      unfold Nat.digitChar
      iterate 16 rw [if_neg (by omega)]
    rw [hstar]
    decide

theorem ascii_toDigitsCore (base fuel n : Nat) (ds : List Char) (h : ∀ c ∈ ds, c.toNat < 128) :
    ∀ c ∈ Nat.toDigitsCore base fuel n ds, c.toNat < 128 := by
  induction fuel generalizing n ds with
  | zero => exact h
  | succ fuel ih =>
    have hcons : ∀ c ∈ Nat.digitChar (n % base) :: ds, c.toNat < 128 := by
      intro c hc
      rcases List.mem_cons.mp hc with rfl | hc
      · exact toNat_digitChar_lt _
      · exact h c hc
    rw [Nat.toDigitsCore]
    split
    · exact hcons
    · exact ih _ _ hcons

theorem ascii_toDigits (base n : Nat) : ∀ c ∈ Nat.toDigits base n, c.toNat < 128 :=
  ascii_toDigitsCore base _ n [] fun _ hc => nomatch hc

theorem lacks_hexDigits (width n : Nat) : g.Lacks (Text.hexDigits width n) := by
  refine lacks_ofList.mpr (not_mem_of_ascii fun c hc => ?_)
  rcases List.mem_append.mp hc with hc | hc
  · rw [List.eq_of_mem_replicate hc]
    decide
  · exact ascii_toDigits 16 n c hc

theorem lacks_intText (n : Int) : g.Lacks (toString n) := by
  have hnat : ∀ k : Nat, g.Lacks k.repr := fun k =>
    lacks_ofList.mpr (not_mem_of_ascii (ascii_toDigits 10 k))
  cases n with
  | ofNat k => exact hnat k
  | negSucc k => exact lacks_append.mpr ⟨lacks_of_isAscii rfl, hnat _⟩

theorem ascii_exponentText (e : Int) : ∀ c ∈ (Decimal.exponentText e).toList, c.toNat < 128 := by
  intro c hc
  simp only [Decimal.exponentText, String.toList_append, String.toList_ofList, List.mem_append] at hc
  rcases hc with (hc | hc) | hc | hc
  · exact toNat_lt_of_isAscii rfl c hc
  · split at hc
    · exact toNat_lt_of_isAscii rfl c hc
    · exact toNat_lt_of_isAscii rfl c hc
  · rw [List.eq_of_mem_replicate hc]
    decide
  · exact ascii_toDigits 10 _ c hc

theorem lacks_render (d : Decimal) : g.Lacks d.render := by
  have hdigits := ascii_toDigits 10 d.digits
  have htake : ∀ n, ∀ c ∈ (Nat.toDigits 10 d.digits).take n, c.toNat < 128 :=
    fun n c hc => hdigits c (List.mem_of_mem_take hc)
  have hdrop : ∀ n, ∀ c ∈ (Nat.toDigits 10 d.digits).drop n, c.toNat < 128 :=
    fun n c hc => hdigits c (List.mem_of_mem_drop hc)
  have hzeros : ∀ n, ∀ c ∈ List.replicate n '0', c.toNat < 128 := by
    intro n c hc
    rw [List.eq_of_mem_replicate hc]
    decide
  have hpoint : ('.' : Char).toNat < 128 := by decide
  have hzero : ('0' : Char).toNat < 128 := by decide
  refine lacks_append.mpr ⟨by split <;> exact lacks_of_isAscii rfl, lacks_ofList.mpr ?_⟩
  apply not_mem_of_ascii
  intro c hc
  -- The digits stand before, around or after the point, or before an exponent.
  split at hc
  · split at hc
    · simp only [List.mem_append, List.mem_cons, List.not_mem_nil, or_false] at hc
      rcases hc with ((rfl | rfl) | hc) | hc
      exacts [hzero, hpoint, hzeros _ c hc, hdigits c hc]
    · simp only [List.mem_append] at hc
      rcases hc with (hc | hc) | hc
      · exact htake 1 c hc
      · split at hc
        · cases hc
        · rcases List.mem_cons.mp hc with rfl | hc
          exacts [hpoint, hdrop 1 c hc]
      · exact ascii_exponentText _ c hc
  · split at hc
    · dsimp only at hc
      split at hc
      · simp only [List.mem_append, List.mem_cons, List.not_mem_nil, or_false] at hc
        rcases hc with (hc | hc) | rfl | rfl
        exacts [hdigits c hc, hzeros _ c hc, hpoint, hzero]
      · simp only [List.mem_append, List.mem_cons, List.not_mem_nil, or_false] at hc
        rcases hc with (hc | rfl) | hc
        exacts [htake _ c hc, hpoint, hdrop _ c hc]
    · simp only [List.mem_append] at hc
      rcases hc with (hc | hc) | hc
      · exact htake 1 c hc
      · split at hc
        · cases hc
        · rcases List.mem_cons.mp hc with rfl | hc
          exacts [hpoint, hdrop 1 c hc]
      · exact ascii_exponentText _ c hc

/-! ## Quoted texts -/

theorem lacks_unitEscape (c : Char) : g.Lacks (Text.unitEscape c) := by
  have hescape : g.Lacks "\\u" := lacks_of_isAscii rfl
  rw [Text.unitEscape]
  split
  · exact lacks_append.mpr ⟨hescape, lacks_hexDigits _ _⟩
  · exact lacks_append.mpr ⟨lacks_append.mpr
      ⟨lacks_append.mpr ⟨hescape, lacks_hexDigits _ _⟩, hescape⟩, lacks_hexDigits _ _⟩

theorem lacks_quoteChar (style : Text.QuoteStyle) {c : Char} (h : g.char ≠ c) :
    g.Lacks (Text.quoteChar style c) := by
  unfold Text.quoteChar
  iterate 7 refine lacks_ite (lacks_of_isAscii rfl) ?_
  exact lacks_ite (lacks_unitEscape c) (lacks_ite (lacks_unitEscape c) (lacks_toString.mpr h))

theorem lacks_quoteString {s : String} (h : g.Lacks s) : g.Lacks (Text.quoteString s) := by
  have hchars : ∀ cs : List Char, g.char ∉ cs → g.Lacks (Text.quoteChars .lineSafe cs) := by
    intro cs
    induction cs with
    | nil => exact fun _ => lacks_of_isAscii rfl
    | cons c rest ih =>
      intro hcs
      obtain ⟨hne, hrest⟩ := not_or.mp (List.mem_cons.not.mp hcs)
      exact lacks_append.mpr ⟨lacks_quoteChar _ hne, ih hrest⟩
  have hquote : g.Lacks "\"" := lacks_of_isAscii rfl
  exact lacks_append.mpr ⟨lacks_append.mpr ⟨hquote, hchars _ h⟩, hquote⟩

theorem lacks_shownChar (q : Char) {c : Char} (h : g.char ≠ c) : g.Lacks (Text.shownChar q c) := by
  have hescape : ∀ {e digits : String}, isAscii e → g.Lacks digits → g.Lacks (e ++ digits) :=
    fun he hdigits => lacks_append.mpr ⟨lacks_of_isAscii he, hdigits⟩
  unfold Text.shownChar
  refine lacks_ite (hescape rfl (lacks_toString.mpr h)) ?_
  iterate 3 refine lacks_ite (lacks_of_isAscii rfl) ?_
  refine lacks_ite (lacks_toString.mpr h) ?_
  exact lacks_ite (hescape rfl (lacks_hexDigits _ _))
    (lacks_ite (hescape rfl (lacks_hexDigits _ _)) (hescape rfl (lacks_hexDigits _ _)))

theorem lacks_shown {s : String} (h : g.Lacks s) : g.Lacks (Text.shown s) := by
  have hquote : ∀ b : Bool, g.Lacks (if b then '"' else '\'').toString := by
    intro b
    cases b <;> exact lacks_of_isAscii rfl
  have hbody : ∀ q, g.Lacks (String.join (s.toList.map (Text.shownChar q))) := by
    intro q hmem
    rw [String.toList_join, List.mem_flatMap] at hmem
    obtain ⟨u, hu, hin⟩ := hmem
    obtain ⟨c, hc, rfl⟩ := List.mem_map.mp hu
    exact lacks_shownChar q (fun heq => h (heq ▸ hc)) hin
  exact lacks_append.mpr ⟨lacks_append.mpr ⟨hquote _, hbody _⟩, hquote _⟩

end Glyph

/-! ## Trees -/

namespace Tree

mutual

/-- The glyph stands in no text and no key of the tree. -/
def IsFree (g : Glyph) : Tree → Prop
  | .str s => g.Lacks s
  | .list xs => ItemsFree g xs
  | .obj _ fs => FieldsFree g fs
  | _ => True

def ItemsFree (g : Glyph) : List Tree → Prop
  | [] => True
  | t :: rest => IsFree g t ∧ ItemsFree g rest

def FieldsFree (g : Glyph) : List (String × Tree) → Prop
  | [] => True
  | (k, v) :: rest => (g.Lacks k ∧ IsFree g v) ∧ FieldsFree g rest

end

variable {g : Glyph}

theorem itemsFree_iff {xs : List Tree} : ItemsFree g xs ↔ ∀ t ∈ xs, t.IsFree g := by
  induction xs with
  | nil => simp [ItemsFree]
  | cons t rest ih => simp [ItemsFree, ih]

theorem fieldsFree_iff {fs : Fields} :
    FieldsFree g fs ↔ ∀ f ∈ fs, g.Lacks f.1 ∧ f.2.IsFree g := by
  induction fs with
  | nil => simp [FieldsFree]
  | cons f rest ih => simp [FieldsFree, ih]

theorem isFree_get {t : Tree} (h : t.IsFree g) (key : String) : (t.get key).IsFree g := by
  rw [get]
  cases hv : t.get? key with
  | none => trivial
  | some v =>
    cases t with
    | obj m fs => exact (fieldsFree_iff.mp h (key, v) (mem_of_lookup_eq_some hv)).2
    | _ => cases hv

theorem isFree_items {t : Tree} (h : t.IsFree g) : ∀ x ∈ t.items, x.IsFree g := by
  cases t with
  | list xs => exact itemsFree_iff.mp h
  | _ => exact fun _ hx => nomatch hx

mutual

theorem lacks_shown : ∀ t : Tree, t.IsFree g → g.Lacks t.shown
  | .null, _ => Glyph.lacks_of_isAscii rfl
  | .bool b, _ => by cases b <;> exact Glyph.lacks_of_isAscii rfl
  | .int n, _ => Glyph.lacks_intText n
  | .real d, _ => Glyph.lacks_render d
  | .str s, h => Glyph.lacks_shown h
  | .list xs, h => by
    have hcomma : g.Lacks ", " := Glyph.lacks_of_isAscii rfl
    have hitems := Glyph.lacks_joinWith hcomma (lacks_shownItems xs h)
    exact Glyph.lacks_append.mpr ⟨Glyph.lacks_append.mpr
      ⟨Glyph.lacks_of_isAscii rfl, hitems⟩, Glyph.lacks_of_isAscii rfl⟩
  | .obj m fs, h => by
    have hcomma : g.Lacks ", " := Glyph.lacks_of_isAscii rfl
    have hfields := Glyph.lacks_joinWith hcomma (lacks_shownFields fs h)
    exact Glyph.lacks_append.mpr ⟨Glyph.lacks_append.mpr
      ⟨Glyph.lacks_of_isAscii rfl, hfields⟩, Glyph.lacks_of_isAscii rfl⟩

theorem lacks_shownItems : ∀ xs : List Tree, ItemsFree g xs → ∀ s ∈ shownItems xs, g.Lacks s
  | [], _, _, hs => nomatch hs
  | t :: rest, h, s, hs => by
    rcases List.mem_cons.mp hs with rfl | hs
    · exact lacks_shown t h.1
    · exact lacks_shownItems rest h.2 s hs

theorem lacks_shownFields : ∀ fs : Fields, FieldsFree g fs → ∀ s ∈ shownFields fs, g.Lacks s
  | [], _, _, hs => nomatch hs
  | (k, v) :: rest, h, s, hs => by
    rcases List.mem_cons.mp hs with rfl | hs
    · have hkey := Glyph.lacks_append.mpr
        ⟨Glyph.lacks_shown h.1.1, Glyph.lacks_of_isAscii (g := g) (s := ": ") rfl⟩
      exact Glyph.lacks_append.mpr ⟨hkey, lacks_shown v h.1.2⟩
    · exact lacks_shownFields rest h.2 s hs

end

theorem lacks_plain {t : Tree} (h : t.IsFree g) : g.Lacks t.plain := by
  cases t with
  | str s => exact h
  | _ => exact lacks_shown _ h

end Tree
end Downlevel
