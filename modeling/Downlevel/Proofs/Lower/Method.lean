import Downlevel.Lower.Method
import Downlevel.Proofs.Grammar.Regular

/-!
# `Proofs.Lower.Method`: programs without concise methods are programs

A property that is no longer a method holds an expression in place of a function, and every function is
an expression.
-/

namespace Downlevel.Lower.Method

open Tree Node Grammar

variable {labels : Labelling} {s : Symbol} {t : Tree}

/-- A property of a pattern is no method. -/
theorem ne_patternProperty (h : Derives labels s t) (hcallable : isCallable t) :
    s ≠ .patternProperty := by
  rintro rfl
  have hadmitted := h.admitted
  rw [Symbol.admits, hcallable, Bool.and_eq_true] at hadmitted
  cases hadmitted.2

/-- The function of a method stays where it is when the property is no longer a method. -/
theorem derives_set_method (h : Derives labels s t) (htype : t.type? = some "Property")
    (hmethod : (t.get "method").isSet) : Derives labels s (t.set "method" (.bool false)) := by
  have hcallable : isCallable t := by rw [isCallable, hmethod, Bool.or_true]
  have hs := ne_patternProperty h hcallable
  have hrules : rulesOf t = [("key", keySlot), ("value", valueSlot)] := by
    rw [rulesOf_of_type? htype, rulesFor_of_mem (by repeat constructor)]
  have hget : ∀ {key}, key ≠ "method" → (t.set "method" (.bool false)).get key = t.get key :=
    fun hne => get_set_of_ne hne t _
  refine h.set_trait (by decide) (by rw [hrules]; rfl) rfl (admits_of_mem ?_ (h.mem_types htype) hs) ?_
  · rw [type?, hget (by decide)]
    exact htype
  · have hparts := h.parts
    rw [hrules] at hparts ⊢
    simp only [List.forall_mem_cons] at hparts ⊢
    obtain ⟨hkey, hvalue, -⟩ := hparts
    refine ⟨?_, ?_, List.forall_mem_nil _⟩
    · simp only [keySlot, Slot.resolve, Trait.holds, hget (by decide : "computed" ≠ "method")]
      exact hkey
    · -- The value was a function, and remains one where the property is an accessor.
      have hfunction : Derives labels .function (t.get "value") := by
        rw [valueSlot, Slot.resolve, Trait.holds, if_pos hcallable] at hvalue
        exact fits_one_iff.mp hvalue
      rw [valueSlot, Slot.resolve]
      split
      · exact hfunction.fits
      · rw [Slot.resolve, if_neg (by simp [Trait.holds, hs])]
        exact fits_one_iff.mpr (hfunction.as (hfunction.type_eq rfl) (by decide) (by decide) (by decide))

theorem derives_property (h : Derives labels s t) (htype : t.type? = some "Property") (w : Work) :
    ∃ t' w', Yields (property t) w t' w' ∧ Derives labels s t' := by
  rw [property]
  cases hmethod : (t.get "method").isSet with
  | false => exact ⟨t, w, rfl, h⟩
  | true =>
    cases hsuper : (t.get "value").usesSuper with
    | true => exact ⟨t, _, rfl, h⟩
    | false => exact ⟨_, w, rfl, derives_set_method h htype hmethod⟩

theorem isStepwise : IsStepwise handle ["Property"] property := by
  intro c t parts
  simp [handle, isTypeIn]

theorem handle_keeps : HandlerKeeps (regularContract Unit Work labels) labels handle :=
  isStepwise.keeps fun h hin => derives_property h (isType_iff.mp (by simpa [isTypeIn] using hin))

/-- **A program without concise methods is a program.** -/
theorem derives_lower (ht : Derives labels .program t) :
    ∃ out, lower t = .ok out ∧ Derives labels .program out.tree :=
  run_program handle_keeps ht trivial (fun _ => id) fun _ => trivial

end Downlevel.Lower.Method
