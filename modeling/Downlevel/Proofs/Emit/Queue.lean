import Downlevel.Emit.Comments
import Mathlib.Data.List.Pairwise

/-!
# `Proofs.Emit.Queue`: comments are handed out in order

Whatever is asked of a queue, what it has handed out and what is still pending are together the comments of
the table, in the order of their starts: a stable sort, with those that have no place at the end. So the
pending comments are in order themselves, and the loops that look at a first few of them look at all.
-/

namespace Downlevel.Emit

/-! ## The order of comments -/

namespace Comment

theorem startLe_trans (b c d : Tree) : startLe b c → startLe c d → startLe b d := by
  unfold startLe
  cases start? b <;> cases start? c <;> cases start? d <;> simp
  exact Int.le_trans

theorem startLe_total (c d : Tree) : (startLe c d || startLe d c) := by
  unfold startLe
  cases start? c <;> cases start? d <;> simp
  omega

theorem startLe_of_start?_eq {c d : Tree} (h : start? c = start? d) : startLe c d := by
  unfold startLe
  rw [h]
  cases start? d <;> simp

theorem isBefore_of_startLe {offset : Int} {c d : Tree} (hle : startLe c d) (h : isBefore offset d) :
    isBefore offset c := by
  unfold startLe at hle
  unfold isBefore at h ⊢
  cases hd : start? d with
  | none => simp [hd] at h
  | some y =>
    cases hc : start? c with
    | none => simp [hc, hd] at hle
    | some x =>
      simp only [hc, hd, decide_eq_true_eq] at hle h ⊢
      omega

end Comment

open Comment

/-- A list is sorted by starts, and comments with one start are in the order in which they were. -/
structure IsStableSort (comments queue : List Tree) : Prop where
  perm : List.Perm queue comments
  sorted : queue.Pairwise fun c d => startLe c d
  stable : ∀ start, queue.filter (start? · = start) = comments.filter (start? · = start)

theorem isStableSort_mergeSort (comments : List Tree) :
    IsStableSort comments (comments.mergeSort startLe) where
  perm := List.mergeSort_perm _ _
  sorted := List.pairwise_mergeSort startLe_trans startLe_total comments
  stable start := by
    -- Comments with one start are in order as they stand, so they are a part of the sorted list.
    have hsorted : (comments.filter (start? · = start)).Pairwise fun c d => startLe c d := by
      refine List.pairwise_of_forall_mem_list fun c hc d hd => startLe_of_start?_eq ?_
      rw [of_decide_eq_true (List.mem_filter.mp hc).2, of_decide_eq_true (List.mem_filter.mp hd).2]
    have hsub := (List.sublist_mergeSort startLe_trans startLe_total hsorted List.filter_sublist).filter
      (start? · = start)
    simp only [List.filter_filter, Bool.and_self] at hsub
    exact (hsub.eq_of_length ((List.mergeSort_perm comments startLe).filter _).length_eq.symm).symm

/-- Of comments in order, those before an offset are the first ones. -/
theorem takeWhile_isBefore {comments : List Tree} (h : comments.Pairwise fun c d => startLe c d) (offset : Int) :
    comments.takeWhile (isBefore offset) = comments.filter (isBefore offset) ∧
      comments.dropWhile (isBefore offset) = comments.filter fun c => !isBefore offset c := by
  induction h with
  | nil => exact ⟨rfl, rfl⟩
  | @cons c rest hc hrest ih =>
    cases hbefore : isBefore offset c with
    | true => simp [hbefore, ih]
    | false =>
      have hnone : ∀ d ∈ rest, isBefore offset d = false := by
        intro d hd
        by_contra hd'
        rw [isBefore_of_startLe (hc d hd) (by simpa using hd')] at hbefore
        cases hbefore
      have hfilter : rest.filter (isBefore offset) = [] := by simpa [List.filter_eq_nil_iff] using hnone
      have hall : (rest.filter fun d => !isBefore offset d) = rest := by
        simpa [List.filter_eq_self] using hnone
      simp [hbefore, hfilter, hall]

/-! ## Parts of the text -/

section

variable {source : List Char} {first last : Int} (hfirst : 0 ≤ first) (hlast : 0 ≤ last)

include hfirst hlast

theorem slice_eq : slice source first last = (source.take last.toNat).drop first.toNat := by
  simp only [slice, clamp, if_neg (Int.not_lt.mpr hfirst), if_neg (Int.not_lt.mpr hlast), ← List.take_eq_take_min]
  rcases Nat.le_total first.toNat source.length with hle | hle
  · rw [Nat.min_eq_left hle]
  · rw [Nat.min_eq_right hle, List.drop_eq_nil_of_le, List.drop_eq_nil_of_le] <;> rw [List.length_take] <;> omega

theorem mem_slice {x : Char} :
    x ∈ slice source first last ↔ ∃ i : Nat, first ≤ i ∧ (i : Int) < last ∧ source[i]? = some x := by
  rw [slice_eq hfirst hlast, List.mem_iff_getElem?]
  constructor
  · rintro ⟨i, hi⟩
    rw [List.getElem?_drop, List.getElem?_take] at hi
    split at hi
    · exact ⟨first.toNat + i, by omega, by omega, hi⟩
    · cases hi
  · rintro ⟨i, hle, hlt, hi⟩
    refine ⟨i - first.toNat, ?_⟩
    rw [List.getElem?_drop, Nat.add_sub_cancel' (by omega), List.getElem?_take_of_lt (by omega), hi]

end

namespace CommentQueue

variable {q : CommentQueue}

/-- In a sorted table, the first token that is not too early tells. -/
theorem hasToken_eq_false_iff (h : q.tokenStarts.Pairwise (· ≤ ·)) (first last : Int) :
    q.hasToken first last = false ↔ ∀ s ∈ q.tokenStarts, first ≤ s → last ≤ s := by
  unfold hasToken
  generalize q.tokenStarts = starts at h
  induction h with
  | nil => simp
  | @cons s rest hs hrest ih =>
    rw [List.forall_mem_cons]
    by_cases hlt : s < first
    · rw [List.dropWhile_cons_of_pos (by simpa using hlt), ih]
      exact ⟨fun h => ⟨fun hle => by omega, h⟩, (·.2)⟩
    · rw [List.dropWhile_cons_of_neg (by simpa using hlt), decide_eq_false_iff_not, Int.not_lt]
      exact ⟨fun h => ⟨fun _ => h, fun x hx _ => Int.le_trans h (hs x hx)⟩, fun h => h.1 (by omega)⟩

/-! ## What is asked of a queue -/

/-- A request to the queue. -/
inductive Request where
  | before (offset : Nat)
  | trailing (offset : Nat)
  | rest
  | peek
  | length

/-- What a request hands out, and the queue after it. -/
def serve (q : CommentQueue) : Request → List Tree × CommentQueue
  | .before n => q.takeBefore n
  | .trailing n => ((q.takeTrailing n).1.toList, (q.takeTrailing n).2)
  | .rest => q.takeRest
  | .peek | .length => ([], q)

/-- What requests hand out one after another, and the queue after them. -/
def serveAll (q : CommentQueue) : List Request → List Tree × CommentQueue
  | [] => ([], q)
  | r :: rs =>
    let (out, q) := q.serve r
    let (more, q) := serveAll q rs
    (out ++ more, q)

/-- A request hands out the next comments, and nothing else changes. -/
theorem serve_spec (q : CommentQueue) (r : Request) :
    ∃ pending, (q.serve r).2 = { q with pending } ∧ (q.serve r).1 ++ pending = q.pending := by
  cases r with
  | before n => exact ⟨_, rfl, List.takeWhile_append_dropWhile⟩
  | trailing n =>
    unfold serve takeTrailing
    cases hpending : q.pending with
    | nil => exact ⟨_, rfl, hpending⟩
    | cons c rest =>
      cases htrails : q.trails n c with
      | true => exact ⟨rest, by simp [htrails], by simp [htrails]⟩
      | false => exact ⟨q.pending, by simp [htrails], by simp [htrails, hpending]⟩
  | rest => exact ⟨[], rfl, List.append_nil _⟩
  | peek | length => exact ⟨_, rfl, rfl⟩

theorem serveAll_spec (q : CommentQueue) (rs : List Request) :
    ∃ pending, (q.serveAll rs).2 = { q with pending } ∧ (q.serveAll rs).1 ++ pending = q.pending := by
  induction rs generalizing q with
  | nil => exact ⟨_, rfl, rfl⟩
  | cons r rs ih =>
    obtain ⟨now, hnow, hout⟩ := q.serve_spec r
    obtain ⟨pending, hq, hmore⟩ := ih (q.serve r).2
    rw [hnow] at hmore
    refine ⟨pending, by rw [serveAll, hq, hnow], ?_⟩
    rw [serveAll, List.append_assoc, hnow, hmore, hout]

/-- A comment trails code that ends at an offset: no line ends and no token starts between them. -/
def Trails (tokens : List Tree) (source : String) (offset : Nat) (comment : Tree) : Prop :=
  ∃ s, start? comment = some s ∧ (offset : Int) ≤ s ∧
    (∀ i : Nat, offset ≤ i → (i : Int) < s → source.toList[i]? ≠ some '\n') ∧
    ∀ t ∈ tokens, ∀ k, t.start? = some k → (offset : Int) ≤ k → s ≤ k

theorem trails_iff {comments pending tokens : List Tree} {source : String} {offset : Nat} {c : Tree} :
    trails { ofTables comments tokens source with pending } offset c ↔ Trails tokens source offset c := by
  have hsorted : (ofTables comments tokens source).tokenStarts.Pairwise (· ≤ ·) := by
    refine (List.pairwise_mergeSort ?_ ?_ _).imp of_decide_eq_true
    · simpa using fun a b c : Int => Int.le_trans
    · simpa using fun a b : Int => Int.le_total a b
  have hmem : ∀ k, k ∈ (ofTables comments tokens source).tokenStarts ↔ ∃ t ∈ tokens, t.start? = some k := by
    intro k
    rw [ofTables, List.mem_mergeSort, List.mem_filterMap]
  unfold trails Trails
  cases start? c with
  | none => simp
  | some s =>
    simp only [Bool.and_eq_true, decide_eq_true_eq, Bool.not_eq_true', Option.some.injEq, exists_eq_left', and_assoc]
    refine and_congr_right fun hle => and_congr ?_ ?_
    · rw [← Bool.not_eq_true, List.contains_iff_mem, mem_slice (by omega) (by omega)]
      simp [ofTables]
    · refine (hasToken_eq_false_iff hsorted _ _).trans ?_
      simp only [hmem]
      exact ⟨fun h t ht k hk => h k ⟨t, ht, hk⟩, fun h k ⟨t, ht, hk⟩ => h t ht k hk⟩

/-- **Comments are handed out in order.** After any requests, what was handed out and what is pending are the
stable sort of the comments. The comments before an offset are taken, and no others; the next one is taken just
if it trails. -/
theorem serveAll_sorted (comments tokens : List Tree) (source : String) (rs : List Request) :
    let out := ((ofTables comments tokens source).serveAll rs).1
    let q := ((ofTables comments tokens source).serveAll rs).2
    IsStableSort comments (out ++ q.pending) ∧ q.length + out.length = comments.length ∧
      q.peek? = q.pending[0]? ∧
      (∀ n : Nat, q.takeBefore n = (q.pending.filter (isBefore n),
        { q with pending := q.pending.filter fun c => !isBefore n c })) ∧
      (∀ n : Nat, q.pending = [] → q.takeTrailing n = (none, q)) ∧
      (∀ (n : Nat) (c : Tree) (rest : List Tree), q.pending = c :: rest →
        (Trails tokens source n c → q.takeTrailing n = (some c, { q with pending := rest })) ∧
        (¬ Trails tokens source n c → q.takeTrailing n = (none, q))) ∧
      q.takeRest = (q.pending, { q with pending := [] }) := by
  obtain ⟨pending, hq, hout⟩ := (ofTables comments tokens source).serveAll_spec rs
  have hsort : IsStableSort comments (((ofTables comments tokens source).serveAll rs).1 ++ pending) :=
    hout ▸ isStableSort_mergeSort comments
  have hpending := (List.pairwise_append.mp hsort.sorted).2.1
  simp only [hq]
  refine ⟨hsort, ?_, List.head?_eq_getElem?, fun n => ?_, ?_, ?_, rfl⟩
  · rw [length, ← hsort.perm.length_eq, List.length_append, Nat.add_comm]
  · rw [takeBefore, (takeWhile_isBefore hpending n).1, (takeWhile_isBefore hpending n).2]
  · rintro n rfl
    rfl
  · rintro n c rest rfl
    rw [takeTrailing]
    exact ⟨fun h => if_pos (trails_iff.mpr h), fun h => if_neg (mt trails_iff.mp h)⟩

end CommentQueue
end Downlevel.Emit
