import Downlevel.Proofs.Grammar.Matches

/-!
# `Proofs.Scope.Relabel`: marks do not matter to scopes

Marking the objects of a tree that have no mark yet changes nothing in its analysis but these marks.
-/

namespace Downlevel.Scope

open Tree

variable {t' t : Tree}

/-- The second tree is the first with marks on the objects that have none. -/
def Marked (t t' : Tree) : Prop := ∃ next, t' = (markFrom next t).1

theorem forall₂_markItems (xs : List Tree) (next : Nat) :
    List.Forall₂ Marked xs (markItems next xs).1 := by
  induction xs generalizing next with
  | nil => exact .nil
  | cons t rest ih => exact .cons ⟨next, rfl⟩ (ih _)

theorem fieldsLike_markFields (fs : Fields) (next : Nat) :
    FieldsLike Marked fs (markFields next fs).1 := by
  induction fs generalizing next with
  | nil => exact .nil
  | cons f rest ih =>
    unfold markFields
    split
    · rename_i hplace
      exact .place hplace (ih next)
    · exact .cons ⟨next, rfl⟩ (ih _)

/-- A field of a marked node. -/
theorem lookup_markFields {key : String} (hkey : isPlaceKey key = false)
    (fs : Fields) (next : Nat) :
    Marked ((lookup key fs).getD .null) ((lookup key (markFields next fs).1).getD .null) := by
  induction fs generalizing next with
  | nil => exact ⟨next, rfl⟩
  | cons f rest ih =>
    obtain ⟨k, v⟩ := f
    unfold markFields
    split
    · rename_i hplace
      have hne : k ≠ key := fun heq => by simp [heq, hkey] at hplace
      simp only [lookup, if_neg hne]
      exact ih next
    · simp only [lookup]
      split
      · exact ⟨next, rfl⟩
      · exact ih _

theorem Marked.get {m : Option Nat} {fs : Fields} (h : Marked (.obj m fs) t') {key : String}
    (hkey : isPlaceKey key = false) : Marked ((Tree.obj m fs).get key) (t'.get key) := by
  obtain ⟨next, rfl⟩ := h
  cases m with
  | none => exact lookup_markFields hkey fs (next + 1)
  | some k => exact lookup_markFields hkey fs next

theorem Marked.matches (h : Marked t t') : Grammar.Matches (Grammar.IsMarkFrom 0) t t' := by
  obtain ⟨next, rfl⟩ := h
  exact Grammar.matches_markFrom t next (Nat.zero_le _)

theorem Marked.text (h : Marked t t') : t'.str? = t.str? := h.matches.str?

theorem Marked.mark (h : Marked t t') : KeepsMark t t' := by
  obtain ⟨next, rfl⟩ := h
  intro m hm
  cases t with
  | obj k fs =>
    obtain rfl : k = some m := hm
    rfl
  | null | bool _ | int _ | real _ | str _ | list _ => cases hm

theorem Marked.face (h : Marked t t') : faceOf t' = faceOf t := by
  have hnull : t'.isNull = t.isNull := by
    obtain ⟨next, rfl⟩ := h
    cases t with
    | obj m fs => cases m <;> rfl
    | null | bool _ | int _ | real _ | str _ | list _ => rfl
  rw [faceOf, faceOf, h.matches.type?, h.matches.isSet, hnull, h.matches.isObject]

theorem Marked.resembles (h : Marked t t') : Resembles t t' where
  face := h.face
  text := h.text
  mark := h.mark
  name := by
    cases t with
    | obj m fs => exact (h.get rfl).text
    | null | bool _ | int _ | real _ | str _ | list _ =>
      obtain ⟨next, rfl⟩ := h
      rfl

/-- A change that only marks. -/
abbrev Change.none : Change := .keeping fun _ => False

theorem Marked.headLike {m : Option Nat} {fs : Fields} (h : Marked (.obj m fs) t') :
    HeadLike .none (.obj m fs) t' := by
  have hplace : ∀ key ∈ shownKeys, isPlaceKey key = false := by decide
  exact headLike_of_resembles h.mark (fun key hkey => (h.get (hplace key hkey)).resembles)
    (binderLike_keyword h.mark (h.get rfl).resembles.isStr)

/-- **A tree and the same tree with marks.** -/
theorem isSimulation_marked : IsSimulation .none Marked where
  scalar := by
    rintro t _ ⟨next, rfl⟩ hscalar
    cases t with
    | list _ | obj _ _ => cases hscalar
    | null | bool _ | int _ | real _ | str _ => rfl
  list := by
    rintro xs _ ⟨next, rfl⟩
    exact ⟨_, rfl, forall₂_markItems xs next⟩
  object := by
    rintro m fs _ ⟨next, rfl⟩
    cases m with
    | none => exact ⟨_, _, rfl, Marked.headLike ⟨next, rfl⟩, fieldsLike_markFields fs (next + 1)⟩
    | some k => exact ⟨_, _, rfl, Marked.headLike ⟨next, rfl⟩, fieldsLike_markFields fs next⟩

theorem programAlike_identify (t : Tree) : ProgramAlike .none Marked t t.identify := by
  have hmarked : Marked t t.identify := ⟨_, rfl⟩
  have hfields : FieldsLike Marked t.fields t.identify.fields := by
    rw [identify]
    cases t with
    | obj m fs =>
      cases m with
      | none => exact fieldsLike_markFields fs _
      | some k => exact fieldsLike_markFields fs _
    | null | bool _ | int _ | real _ | str _ | list _ => exact .nil
  have hsource : Marked (t.get "sourceType") (t.identify.get "sourceType") := by
    cases t with
    | obj m fs => exact hmarked.get rfl
    | null | bool _ | int _ | real _ | str _ | list _ => exact ⟨0, rfl⟩
  exact
    { mark := hmarked.mark
      sourceType := hsource.resembles.isStr "module"
      fields := hfields }

end Downlevel.Scope
