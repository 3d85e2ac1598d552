import Downlevel.Tree.Mark
import Mathlib.Data.List.Count
import Mathlib.Data.List.Nodup

/-!
# `Proofs.Tree.Mark`: marks tell nodes apart

Marking gives every object a mark, leaves the marks already given, and uses each number from its start on
once. So where the given marks are different, all marks are.
-/

namespace Downlevel.Tree

/-! ## Marked trees -/

mutual

/-- Does every object have a mark, places in the text apart? -/
def IsMarked : Tree → Prop
  | .list xs => ItemsMarked xs
  | .obj m fs => m.isSome ∧ FieldsMarked fs
  | _ => True

def ItemsMarked : List Tree → Prop
  | [] => True
  | t :: rest => IsMarked t ∧ ItemsMarked rest

def FieldsMarked : List (String × Tree) → Prop
  | [] => True
  | (k, v) :: rest => (isPlaceKey k = false → IsMarked v) ∧ FieldsMarked rest

end

mutual

theorem isMarked_markFrom : ∀ (t : Tree) (next : Nat), (markFrom next t).1.IsMarked
  | .list xs, next => itemsMarked_markItems xs next
  | .obj (some _) fs, next => ⟨rfl, fieldsMarked_markFields fs next⟩
  | .obj none fs, next => ⟨rfl, fieldsMarked_markFields fs (next + 1)⟩
  | .null, _ | .bool _, _ | .int _, _ | .real _, _ | .str _, _ => trivial

theorem itemsMarked_markItems : ∀ (xs : List Tree) (next : Nat), ItemsMarked (markItems next xs).1
  | [], _ => trivial
  | t :: rest, next => ⟨isMarked_markFrom t next, itemsMarked_markItems rest _⟩

theorem fieldsMarked_markFields : ∀ (fs : Fields) (next : Nat),
    FieldsMarked (markFields next fs).1
  | [], _ => trivial
  | (k, v) :: rest, next => by
    unfold markFields
    split
    · rename_i hplace
      exact ⟨fun h => absurd hplace (by simp [h]), fieldsMarked_markFields rest next⟩
    · exact ⟨fun _ => isMarked_markFrom v next, fieldsMarked_markFields rest _⟩

end

theorem isMarked_identify (t : Tree) : t.identify.IsMarked := isMarked_markFrom t _

/-! ## Different marks -/

theorem marksOfItems_eq (xs : List Tree) : marksOfItems xs = xs.flatMap marks := by
  induction xs with
  | nil => rfl
  | cons x xs ih => rw [marksOfItems, List.flatMap_cons, ih]

theorem marksOfFields_eq (fs : Fields) :
    marksOfFields fs = fs.flatMap fun f => if isPlaceKey f.1 then [] else f.2.marks := by
  induction fs with
  | nil => rfl
  | cons f fs ih => rw [marksOfFields, List.flatMap_cons, ih]

/-- One for the numbers from `low` up to `high`, else none. -/
def usedOnce (low high m : Nat) : Nat := if low ≤ m ∧ m < high then 1 else 0

theorem usedOnce_add {low mid high : Nat} (h₁ : low ≤ mid) (h₂ : mid ≤ high) (m : Nat) :
    usedOnce low mid m + usedOnce mid high m = usedOnce low high m := by
  unfold usedOnce
  split <;> split <;> split <;> omega

mutual

/-- Marking keeps the marks given and uses every number up to the next free one once. -/
theorem count_marks_markFrom : ∀ (t : Tree) (next : Nat), next ≤ (markFrom next t).2 ∧
    ∀ m, (markFrom next t).1.marks.count m = t.marks.count m + usedOnce next (markFrom next t).2 m
  | .list xs, next => count_marks_markItems xs next
  | .obj (some k) fs, next => by
    obtain ⟨hle, hcount⟩ := count_marks_markFields fs next
    refine ⟨hle, fun m => ?_⟩
    simp only [markFrom, marks, List.count_append, hcount]
    omega
  | .obj none fs, next => by
    obtain ⟨hle, hcount⟩ := count_marks_markFields fs (next + 1)
    refine ⟨by simp only [markFrom]; omega, fun m => ?_⟩
    have hsplit := usedOnce_add (Nat.le_succ next) hle m
    have hself : List.count m [next] = usedOnce next (next + 1) m := by
      rw [List.count_singleton, usedOnce]
      by_cases h : next = m
      · simp [h]
      · have hno : ¬ (next ≤ m ∧ m < next + 1) := by omega
        rw [if_neg hno]
        simp [h]
    simp only [markFrom, marks, List.count_append, hcount, Option.toList, List.nil_append,
      hself, Nat.succ_eq_add_one] at hsplit ⊢
    omega
  | .null, next | .bool _, next | .int _, next | .real _, next | .str _, next => by
    refine ⟨Nat.le_refl next, fun m => ?_⟩
    have hno : ¬ (next ≤ m ∧ m < next) := by omega
    simp [markFrom, marks, usedOnce, hno]

theorem count_marks_markItems : ∀ (xs : List Tree) (next : Nat), next ≤ (markItems next xs).2 ∧
    ∀ m, (marksOfItems (markItems next xs).1).count m =
      (marksOfItems xs).count m + usedOnce next (markItems next xs).2 m
  | [], next => by
    refine ⟨Nat.le_refl next, fun m => ?_⟩
    have hno : ¬ (next ≤ m ∧ m < next) := by omega
    simp [markItems, marksOfItems, usedOnce, hno]
  | t :: rest, next => by
    obtain ⟨hle, hcount⟩ := count_marks_markFrom t next
    obtain ⟨hle', hcount'⟩ := count_marks_markItems rest (markFrom next t).2
    refine ⟨Nat.le_trans hle hle', fun m => ?_⟩
    have hsplit := usedOnce_add hle hle' m
    simp only [markItems, marksOfItems, List.count_append, hcount, hcount']
    omega

theorem count_marks_markFields : ∀ (fs : Fields) (next : Nat),
    next ≤ (markFields next fs).2 ∧
    ∀ m, (marksOfFields (markFields next fs).1).count m =
      (marksOfFields fs).count m + usedOnce next (markFields next fs).2 m
  | [], next => by
    refine ⟨Nat.le_refl next, fun m => ?_⟩
    have hno : ¬ (next ≤ m ∧ m < next) := by omega
    simp [markFields, marksOfFields, usedOnce, hno]
  | (k, v) :: rest, next => by
    unfold markFields
    split
    · rename_i hplace
      obtain ⟨hle, hcount⟩ := count_marks_markFields rest next
      refine ⟨hle, fun m => ?_⟩
      simp only [marksOfFields, hplace, if_true, List.nil_append, hcount]
    · rename_i hplace
      obtain ⟨hle, hcount⟩ := count_marks_markFrom v next
      obtain ⟨hle', hcount'⟩ := count_marks_markFields rest (markFrom next v).2
      refine ⟨Nat.le_trans hle hle', fun m => ?_⟩
      have hsplit := usedOnce_add hle hle' m
      simp only [marksOfFields, hplace, Bool.false_eq_true, if_false, List.count_append, hcount, hcount']
      omega

end

/-- All marks in use are below the free mark. -/
theorem lt_freeMark {t : Tree} {m : Nat} (h : m ∈ t.marks) : m < t.freeMark := by
  have hfold : ∀ (ms : List Nat) (n : Nat),
      n ≤ ms.foldl (fun n m => max n (m + 1)) n ∧ ∀ k ∈ ms, k < ms.foldl (fun n m => max n (m + 1)) n := by
    intro ms
    induction ms with
    | nil => exact fun n => ⟨Nat.le_refl n, fun k hk => absurd hk List.not_mem_nil⟩
    | cons a ms ih =>
      intro n
      obtain ⟨hle, hlt⟩ := ih (max n (a + 1))
      rw [List.foldl_cons]
      refine ⟨Nat.le_trans (Nat.le_max_left _ _) hle, fun k hk => ?_⟩
      rcases List.mem_cons.mp hk with rfl | hk
      · exact Nat.lt_of_lt_of_le (Nat.lt_of_lt_of_le (Nat.lt_succ_self k) (Nat.le_max_right _ _)) hle
      · exact hlt k hk
  exact (hfold t.marks 0).2 m h

/-- **Where the marks given are different, all marks are.** -/
theorem nodup_marks_identify {t : Tree} (h : t.marks.Nodup) : t.identify.marks.Nodup := by
  rw [List.nodup_iff_count_le_one] at h ⊢
  intro m
  rw [identify, (count_marks_markFrom t t.freeMark).2 m]
  have hold := h m
  unfold usedOnce
  split
  · rename_i hnew
    have hnot : m ∉ t.marks := fun hm => absurd (lt_freeMark hm) (by omega)
    have hzero := List.count_eq_zero_of_not_mem hnot
    omega
  · omega

end Downlevel.Tree
