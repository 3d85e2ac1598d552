import Downlevel.Lower.Block.Flow
import Downlevel.Proofs.Node.Follow

/-!
# `Proofs.Flow.Signals`: what becomes of a moved body

Sending signals instead of jumping never fails, and what becomes of a statement does not depend on the
signals before it. So it is a plain function of the statement and of what stands around it: `signalled`
gives the new statement together with the signals it sends.
-/

namespace Downlevel.Flow

open Tree Node Lower.Block

variable {α : Type} {key s : String} {v t : Tree}

/-! ## Signals -/

/-- The signals of two statements together. -/
def join (s s' : Signals) : Signals := ⟨s.hasBreak || s'.hasBreak, s.hasReturn || s'.hasReturn⟩

theorem join_none (s : Signals) : join s {} = s := by simp [join]

/-- Functions and classes keep their jumps to themselves. -/
def isSealed (t : Tree) : Bool := t.isTypeIn (functionTypes ++ classTypes)

/-- `return {v: …};` for a `return`. -/
def boxedReturn (t : Tree) : Tree :=
  let value := if (t.get "argument").isSet then t.get "argument" else voidZero
  returnStatement (some (objectExpression [property (identifier "v") value])) t

mutual

/-- A statement with its jumps as signals, and the signals that it sends. -/
def signalled (c : Nesting) : Tree → Tree × Signals
  | .obj m fs =>
    let t := Tree.obj m fs
    let isLabelled := (t.get "label").isSet
    let parts := fun c => (signalledFields c fs).map (Tree.obj m) id
    if isSealed t then (t, {})
    else if isLoop t then parts { c with inLoop := true }
    else match t.type? with
      | some "SwitchStatement" => parts { c with inSwitch := true }
      | some "BreakStatement" =>
        if isLabelled || c.inLoop || c.inSwitch then (t, {})
        else (returnStatement (some (literal (.str "break"))) t, { hasBreak := true })
      | some "ContinueStatement" =>
        if isLabelled || c.inLoop then (t, {}) else (returnStatement none t, {})
      | some "ReturnStatement" =>
        let (t, s) := parts c
        (boxedReturn t, join s { hasReturn := true })
      | _ => parts c
  | .list xs => (signalledItems c xs).map Tree.list id
  | .null => (.null, {})
  | .bool b => (.bool b, {})
  | .int n => (.int n, {})
  | .real d => (.real d, {})
  | .str s => (.str s, {})

def signalledFields (c : Nesting) : List (String × Tree) → List (String × Tree) × Signals
  | [] => ([], {})
  | (k, v) :: rest =>
    let (v', s) := if isSyntaxKey k && isVisited v then signalled c v else (v, {})
    let (rest', s') := signalledFields c rest
    ((k, v') :: rest', join s s')

def signalledItems (c : Nesting) : List Tree → List Tree × Signals
  | [] => ([], {})
  | t :: rest =>
    let (t', s) := if t.isNode then signalled c t else (t, {})
    let (rest', s') := signalledItems c rest
    (t' :: rest', join s s')

end

/-! ## The visit -/

/-- The visit gives a result, sends signals and never fails. -/
def Sends {α : Type} (v : Visit Signals α) (r : α × Signals) : Prop := ∀ s, v.run s = .ok (r.1, join s r.2)

theorem sends_pure (a : α) : Sends (pure a) (a, {}) := by
  intro s
  rw [join_none]
  rfl

theorem Sends.bind {β : Type} {v : Visit Signals α} {f : α → Visit Signals β} {r : α × Signals}
    {r' : β × Signals} (h : Sends v r) (h' : Sends (f r.1) r') : Sends (v >>= f) (r'.1, join r.2 r'.2) := by
  intro s
  show (v.run s >>= fun p => (f p.1).run p.2) = _
  rw [h s]
  show (f r.1).run (join s r.2) = _
  rw [h' (join s r.2)]
  simp [join, Bool.or_assoc]

theorem Sends.map {β : Type} {v : Visit Signals α} {r : α × Signals} (h : Sends v r) (f : α → β) :
    Sends (f <$> v) (f r.1, r.2) := by
  have := h.bind (f := fun a => pure (f a)) (sends_pure (f r.1))
  rw [join_none] at this
  simpa using this

/-- One result after another, in a list. -/
theorem Sends.append {v v' : Visit Signals (List α)} {r r' : List α × Signals} (h : Sends v r)
    (h' : Sends v' r') :
    Sends (do let head ← v; let tail ← v'; return head ++ tail) (r.1 ++ r'.1, join r.2 r'.2) := by
  have htail := h'.bind (f := fun tail => pure (r.1 ++ tail)) (sends_pure _)
  rw [join_none] at htail
  exact h.bind (f := fun head => do let tail ← v'; return head ++ tail) htail

theorem sends_break :
    Sends (modify fun s => { s with hasBreak := true }) (PUnit.unit, { hasBreak := true }) := by
  intro s
  have hjoin : join s { hasBreak := true } = { s with hasBreak := true } := by simp [join]
  rw [hjoin]
  rfl

theorem sends_return :
    Sends (modify fun s => { s with hasReturn := true }) (PUnit.unit, { hasReturn := true }) := by
  intro s
  have hjoin : join s { hasReturn := true } = { s with hasReturn := true } := by simp [join]
  rw [hjoin]
  rfl

/-- One node, given what the visit makes of its fields. -/
theorem sends_signalHandle {m : Option Nat} {fs : Fields}
    (hfields : ∀ c, Sends (visitFields signalHandle (fun _ => some c) fs) (signalledFields c fs))
    (c : Nesting) :
    Sends (signalHandle c (.obj m fs) (partsOf signalHandle m fs)) ((signalled c (.obj m fs)).map .keep id) := by
  have hparts : ∀ c, Sends ((partsOf signalHandle m fs).descend fun _ => some c)
      (Tree.obj m (signalledFields c fs).1, (signalledFields c fs).2) :=
    fun c => (hfields c).map (Tree.obj m)
  have hpass : ∀ c, Sends (passOver c (partsOf signalHandle m fs))
      (.keep (Tree.obj m (signalledFields c fs).1), (signalledFields c fs).2) :=
    fun c => (hparts c).map Outcome.keep
  unfold signalHandle signalled
  by_cases hsealed : isSealed (.obj m fs)
  · rw [if_pos (show (Tree.obj m fs).isTypeIn (functionTypes ++ classTypes) = true from hsealed),
      if_pos hsealed]
    exact sends_pure _
  rw [if_neg (show ¬ (Tree.obj m fs).isTypeIn (functionTypes ++ classTypes) = true from hsealed),
    if_neg hsealed]
  by_cases hloop : isLoop (.obj m fs)
  · rw [if_pos hloop, if_pos hloop]
    exact hpass _
  rw [if_neg hloop, if_neg hloop]
  split <;> rename_i htype <;> try simp only [htype]
  · exact hpass _
  · split
    · exact sends_pure _
    · exact sends_break.bind (f := fun _ => pure (Outcome.keep _)) (sends_pure _)
  · split
    · exact sends_pure _
    · exact sends_pure _
  · have hlast : ∀ t, Sends (do modify fun s => { s with hasReturn := true }; return .keep t)
        (Outcome.keep t, { hasReturn := true }) :=
      fun t => sends_return.bind (f := fun _ => pure (Outcome.keep t)) (sends_pure _)
    exact (hparts c).bind (f := fun t => do
      modify fun s => { s with hasReturn := true }
      return Outcome.keep (boxedReturn t)) (hlast _)
  · exact hpass _

mutual

/-- The visit of a value does what `signalled` says. -/
theorem visit_signalHandle : ∀ (t : Tree) (c : Nesting),
    Sends (visit signalHandle c t) ((signalled c t).map .keep id)
  | .obj _ fs, c => sends_signalHandle (visitFields_signalHandle fs) c
  | .list xs, c => (visitItems_signalHandle xs c).map (Outcome.keep ∘ Tree.list)
  | .null, _ | .bool _, _ | .int _, _ | .real _, _ | .str _, _ => sends_pure _

theorem visitFields_signalHandle : ∀ (fs : Fields) (c : Nesting),
    Sends (visitFields signalHandle (fun _ => some c) fs) (signalledFields c fs)
  | [], _ => sends_pure _
  | (k, v) :: rest, c => by
    have htail := visitFields_signalHandle rest c
    rw [visitFields, signalledFields]
    by_cases hvisit : (isSyntaxKey k && isVisited v)
    · simp only [hvisit, if_true]
      exact ((visit_signalHandle v c).map (Outcome.inField k v)).append htail
    · simp only [hvisit]
      exact (sends_pure [(k, v)]).append htail

theorem visitItems_signalHandle : ∀ (ts : List Tree) (c : Nesting),
    Sends (visitItems signalHandle c ts) (signalledItems c ts)
  | [], _ => sends_pure _
  | t :: rest, c => by
    have htail := visitItems_signalHandle rest c
    rw [visitItems, signalledItems]
    by_cases hnode : t.isNode
    · simp only [hnode, if_true]
      exact ((visit_signalHandle t c).map Outcome.inList).append htail
    · simp only [hnode]
      exact (sends_pure [t]).append htail

end

/-- The statements of a body with their signals. -/
theorem signal_eq (statements : List Tree) : signal statements = .ok (signalledItems {} statements) :=
  visitItems_signalHandle statements {} {}

/-! ## The parts of the new statement -/

/-- Every signal of the one is a signal of the other. -/
def Within (s s' : Signals) : Prop :=
  (s.hasBreak = true → s'.hasBreak = true) ∧ (s.hasReturn = true → s'.hasReturn = true)

theorem Within.trans {s s' s'' : Signals} (h : Within s s') (h' : Within s' s'') : Within s s'' :=
  ⟨h'.1 ∘ h.1, h'.2 ∘ h.2⟩

theorem within_join_left (s s' : Signals) : Within s (join s s') := by
  constructor <;> intro h <;> simp [join, h]

theorem within_join_right (s s' : Signals) : Within s' (join s s') := by
  constructor <;> intro h <;> simp [join, h]

/-- What becomes of the value of a field. -/
def part (c : Nesting) (key : String) (v : Tree) : Tree × Signals :=
  if isSyntaxKey key && isVisited v then signalled c v else (v, {})

/-- What becomes of an item of a list. -/
def item (c : Nesting) (t : Tree) : Tree × Signals :=
  if t.isNode then signalled c t else (t, {})

theorem signalledFields_cons (c : Nesting) (key : String) (v : Tree) (rest : Fields) :
    signalledFields c ((key, v) :: rest) =
      ((key, (part c key v).1) :: (signalledFields c rest).1,
        join (part c key v).2 (signalledFields c rest).2) := rfl

theorem signalledItems_cons (c : Nesting) (t : Tree) (rest : List Tree) :
    signalledItems c (t :: rest) =
      ((item c t).1 :: (signalledItems c rest).1, join (item c t).2 (signalledItems c rest).2) := rfl

theorem lookup_signalledFields (c : Nesting) (key : String) (fs : Fields) :
    lookup key (signalledFields c fs).1 = (lookup key fs).map fun v => (part c key v).1 := by
  induction fs with
  | nil => rfl
  | cons f rest ih =>
    obtain ⟨k, v⟩ := f
    rw [signalledFields_cons]
    simp only [lookup]
    split
    · rename_i hk
      rw [hk]
      rfl
    · exact ih

theorem within_signalledFields {c : Nesting} {fs : Fields} (h : lookup key fs = some v) :
    Within (part c key v).2 (signalledFields c fs).2 := by
  induction fs with
  | nil => simp [lookup] at h
  | cons f rest ih =>
    obtain ⟨k, u⟩ := f
    rw [signalledFields_cons]
    simp only [lookup] at h
    split at h
    · rename_i hk
      cases h
      rw [hk]
      exact within_join_left _ _
    · exact (ih h).trans (within_join_right _ _)

theorem signalledItems_fst (c : Nesting) (ts : List Tree) :
    (signalledItems c ts).1 = ts.map fun t => (item c t).1 := by
  induction ts with
  | nil => rfl
  | cons t rest ih =>
    rw [signalledItems_cons, ih]
    rfl

theorem within_signalledItems {c : Nesting} {ts : List Tree} (h : t ∈ ts) :
    Within (item c t).2 (signalledItems c ts).2 := by
  induction ts with
  | nil => simp at h
  | cons u rest ih =>
    rw [signalledItems_cons]
    rcases List.mem_cons.mp h with rfl | h
    · exact within_join_left _ _
    · exact (ih h).trans (within_join_right _ _)

/-- The statement stays, and its parts are visited with `c'` around them. -/
def Passes (c c' : Nesting) (t : Tree) : Prop :=
  ∃ m fs, t = .obj m fs ∧ signalled c t = (.obj m (signalledFields c' fs).1, (signalledFields c' fs).2)

section

variable {c c' : Nesting} {t : Tree}

theorem Passes.get (h : Passes c c' t) (key : String) :
    (signalled c t).1.get key = (part c' key (t.get key)).1 ∧
      Within (part c' key (t.get key)).2 (signalled c t).2 := by
  obtain ⟨m, fs, rfl, heq⟩ := h
  rw [heq]
  have hlookup := lookup_signalledFields c' key fs
  have hget : ∀ m fs, (Tree.obj m fs).get key = (lookup key fs).getD .null := fun _ _ => rfl
  rw [hget, hget, hlookup]
  cases hv : lookup key fs with
  | none =>
    have hnull : part c' key .null = (.null, {}) := by simp [part, isVisited, isNode, isList]
    rw [Option.map_none, Option.getD_none, hnull]
    exact ⟨rfl, nofun, nofun⟩
  | some v => exact ⟨rfl, within_signalledFields hv⟩

theorem Passes.get_type (h : Passes c c' t) : (signalled c t).1.get "type" = t.get "type" := by
  rw [(h.get "type").1]
  simp [part, isSyntaxKey, skippedKeys]

theorem Passes.type? (h : Passes c c' t) : (signalled c t).1.type? = t.type? := by
  unfold Tree.type?
  rw [h.get_type]

theorem Passes.isTypeIn (h : Passes c c' t) (names : List String) :
    (signalled c t).1.isTypeIn names = t.isTypeIn names := by
  unfold Tree.isTypeIn isType
  rw [h.get_type]

theorem isObject_returnStatement (argument : Option Tree) (place : Tree) :
    (returnStatement argument place).isObject ∧ (returnStatement argument place).isSet := by
  unfold returnStatement located
  split <;> split <;> exact ⟨rfl, rfl⟩

/-- A node is never replaced by a list, a plain value or nothing. -/
theorem isObject_signalled (c : Nesting) (m : Option Nat) (fs : Fields) :
    (signalled c (.obj m fs)).1.isObject ∧ (fs ≠ [] → (signalled c (.obj m fs)).1.isSet) := by
  have hfields : ∀ c, fs ≠ [] → (Tree.obj m (signalledFields c fs).1).isSet := by
    intro c hne
    obtain ⟨f, rest, rfl⟩ := List.exists_cons_of_ne_nil hne
    rfl
  have hself : fs ≠ [] → (Tree.obj m fs).isSet := by
    intro hne
    obtain ⟨f, rest, rfl⟩ := List.exists_cons_of_ne_nil hne
    rfl
  have hreturn : ∀ argument place, (returnStatement argument place).isObject ∧
      (fs ≠ [] → (returnStatement argument place).isSet) :=
    fun argument place => ⟨(isObject_returnStatement argument place).1,
      fun _ => (isObject_returnStatement argument place).2⟩
  simp only [signalled]
  split
  · exact ⟨rfl, hself⟩
  split
  · exact ⟨rfl, hfields _⟩
  split
  · exact ⟨rfl, hfields _⟩
  · split
    · exact ⟨rfl, hself⟩
    · exact hreturn _ _
  · split
    · exact ⟨rfl, hself⟩
    · exact hreturn _ _
  · exact hreturn _ _
  · exact ⟨rfl, hfields _⟩

theorem Passes.children (h : Passes c c' t) (hkey : isSyntaxKey key) :
    (signalled c t).1.children key = (t.children key).map fun u => (item c' u).1 := by
  unfold Tree.children
  rw [(h.get key).1, part, hkey, Bool.true_and]
  cases hv : t.get key with
  | list xs => simp [isVisited, isList, signalled, signalledItems_fst, items]
  | obj m fs =>
    split
    · have := (isObject_signalled c' m fs).1
      cases hs : (signalled c' (.obj m fs)).1 <;> simp_all [isObject, items]
    · rfl
  | _ => simp [isVisited, isList, isNode, items]

theorem Passes.within_item (h : Passes c c' t) (hkey : isSyntaxKey key) {u : Tree}
    (hu : u ∈ t.children key) : Within (item c' u).2 (signalled c t).2 := by
  have hpart := (h.get key).2
  unfold Tree.children at hu
  cases hv : t.get key with
  | list xs =>
    rw [hv] at hu hpart
    refine Within.trans ?_ hpart
    simp only [part, hkey, isVisited, isList, Bool.or_true, Bool.and_self, if_true, signalled]
    exact within_signalledItems hu
  | _ => simp [hv, items] at hu

end

/-- What is not set stays as it is. -/
theorem part_of_not_isSet (h : v.isSet = false) (c : Nesting) (key : String) : part c key v = (v, {}) := by
  unfold part
  split
  · rename_i hvisited
    cases v with
    | list xs =>
      obtain rfl : xs = [] := by simpa [isSet] using h
      rfl
    | obj m fs =>
      obtain rfl : fs = [] := by simpa [isSet] using h
      simp [isVisited, isNode, isList, lookup] at hvisited
    | _ => rfl
  · rfl

theorem part_of_type? (h : t.type? = some s) (c : Nesting) (hkey : isSyntaxKey key) :
    part c key t = signalled c t := by
  unfold part
  rw [if_pos (by rw [hkey, isVisited, isNode_of_type? h]; rfl)]

theorem item_of_type? (h : t.type? = some s) (c : Nesting) :
    item c t = signalled c t := if_pos (isNode_of_type? h)

/-! ### Which statements pass -/

theorem isSealed_of_type? (h : t.type? = some s) :
    isSealed t = decide (s ∈ functionTypes ++ classTypes) := isTypeIn_of_type? h _

theorem passes_loop (h : isLoop t) (c : Nesting) : Passes c { c with inLoop := true } t := by
  have hdisjoint : ∀ s ∈ loopTypes, s ∉ functionTypes ++ classTypes := by decide
  obtain ⟨s, hs, htype⟩ := isTypeIn_iff.mp h
  obtain ⟨m, fs, rfl⟩ := isObject_of_type? htype
  refine ⟨m, fs, rfl, ?_⟩
  unfold signalled
  rw [if_neg (by rw [isSealed_of_type? htype]; simpa using hdisjoint s hs), if_pos h]
  rfl

theorem passes_switch (h : t.type? = some "SwitchStatement") (c : Nesting) :
    Passes c { c with inSwitch := true } t := by
  obtain ⟨m, fs, rfl⟩ := isObject_of_type? h
  refine ⟨m, fs, rfl, ?_⟩
  unfold signalled
  rw [if_neg (by rw [isSealed_of_type? h]; decide), if_neg (by rw [isLoop, isTypeIn_of_type? h]; decide)]
  simp only [h]
  rfl

/-- The types that are treated in a way of their own. -/
def specialTypes : List String :=
  functionTypes ++ classTypes ++ loopTypes ++
    ["SwitchStatement", "BreakStatement", "ContinueStatement", "ReturnStatement"]

theorem passes_plain (h : t.type? = some s) (hs : s ∉ specialTypes) (c : Nesting) : Passes c c t := by
  obtain ⟨m, fs, rfl⟩ := isObject_of_type? h
  simp only [specialTypes, List.mem_append, not_or] at hs
  obtain ⟨⟨hsealed, hloop⟩, hother⟩ := hs
  refine ⟨m, fs, rfl, ?_⟩
  unfold signalled
  rw [if_neg (by rw [isSealed_of_type? h]; simpa using hsealed),
    if_neg (by rw [isLoop, isTypeIn_of_type? h]; simpa using hloop)]
  simp only [h]
  split <;> first | rfl | simp_all

/-! ### Jumps -/

theorem signalled_break (h : t.type? = some "BreakStatement") (c : Nesting) :
    signalled c t = if (t.get "label").isSet || c.inLoop || c.inSwitch then (t, {})
      else (returnStatement (some (literal (.str "break"))) t, { hasBreak := true }) := by
  obtain ⟨m, fs, rfl⟩ := isObject_of_type? h
  unfold signalled
  rw [if_neg (by rw [isSealed_of_type? h]; decide), if_neg (by rw [isLoop, isTypeIn_of_type? h]; decide)]
  simp only [h]

theorem signalled_continue (h : t.type? = some "ContinueStatement") (c : Nesting) :
    signalled c t = if (t.get "label").isSet || c.inLoop then (t, {})
      else (returnStatement none t, {}) := by
  obtain ⟨m, fs, rfl⟩ := isObject_of_type? h
  unfold signalled
  rw [if_neg (by rw [isSealed_of_type? h]; decide), if_neg (by rw [isLoop, isTypeIn_of_type? h]; decide)]
  simp only [h]

theorem signalled_return (h : t.type? = some "ReturnStatement") (c : Nesting) :
    ∃ t', t'.get "argument" = (part c "argument" (t.get "argument")).1 ∧
      (signalled c t).1 = boxedReturn t' ∧ (signalled c t).2.hasReturn := by
  obtain ⟨m, fs, rfl⟩ := isObject_of_type? h
  refine ⟨.obj m (signalledFields c fs).1, ?_, ?_⟩
  · show (lookup "argument" (signalledFields c fs).1).getD .null = _
    rw [lookup_signalledFields]
    show _ = (part c "argument" ((lookup "argument" fs).getD .null)).1
    cases lookup "argument" fs with
    | none => rw [Option.map_none, Option.getD_none, part_of_not_isSet rfl]
    | some v => rfl
  · unfold signalled
    rw [if_neg (by rw [isSealed_of_type? h]; decide), if_neg (by rw [isLoop, isTypeIn_of_type? h]; decide)]
    simp only [h]
    exact ⟨rfl, by simp [join]⟩

/-! ## What holds no jump -/

def jumpTypes : List String := ["BreakStatement", "ContinueStatement", "ReturnStatement"]

mutual

/-- Are there no jumps in a value, functions and classes apart? -/
def isCalm : Tree → Bool
  | .obj m fs =>
    isSealed (.obj m fs) || (!(Tree.obj m fs).isTypeIn jumpTypes && isCalmFields fs)
  | .list xs => isCalmItems xs
  | .null => true
  | .bool _ => true
  | .int _ => true
  | .real _ => true
  | .str _ => true

def isCalmFields : List (String × Tree) → Bool
  | [] => true
  | (_, v) :: rest => isCalm v && isCalmFields rest

def isCalmItems : List Tree → Bool
  | [] => true
  | t :: rest => isCalm t && isCalmItems rest

end

mutual

/-- What holds no jump stays as it is and sends nothing. -/
theorem signalled_of_isCalm : ∀ {t : Tree}, isCalm t → ∀ c, signalled c t = (t, {})
  | .obj m fs, h, c => by
    simp only [isCalm, Bool.or_eq_true, Bool.and_eq_true, Bool.not_eq_true'] at h
    simp only [signalled]
    by_cases hsealed : isSealed (.obj m fs)
    · rw [if_pos hsealed]
    obtain ⟨hjump, hfields⟩ := h.resolve_left hsealed
    have hparts : ∀ c, (signalledFields c fs).map (Tree.obj m) id = (.obj m fs, {}) := by
      intro c
      rw [signalledFields_of_isCalm hfields c]
      rfl
    have hno : ∀ s ∈ jumpTypes, (Tree.obj m fs).type? ≠ some s := by
      intro s hs htype
      rw [isTypeIn_of_type? htype] at hjump
      exact absurd hs (by simpa using hjump)
    rw [if_neg hsealed]
    split
    · exact hparts _
    split
    · exact hparts _
    · exact absurd ‹_› (hno "BreakStatement" (by decide))
    · exact absurd ‹_› (hno "ContinueStatement" (by decide))
    · exact absurd ‹_› (hno "ReturnStatement" (by decide))
    · exact hparts _
  | .list xs, h, c => by
    rw [signalled, signalledItems_of_isCalm h c]
    rfl
  | .null, _, _ | .bool _, _, _ | .int _, _, _ | .real _, _, _ | .str _, _, _ => rfl

theorem signalledFields_of_isCalm : ∀ {fs : Fields}, isCalmFields fs →
    ∀ c, signalledFields c fs = (fs, {})
  | [], _, _ => rfl
  | (k, v) :: rest, h, c => by
    simp only [isCalmFields, Bool.and_eq_true] at h
    have hpart : part c k v = (v, {}) := by
      unfold part
      split
      · exact signalled_of_isCalm h.1 c
      · rfl
    rw [signalledFields_cons, hpart, signalledFields_of_isCalm h.2 c, join_none]

theorem signalledItems_of_isCalm : ∀ {ts : List Tree}, isCalmItems ts →
    ∀ c, signalledItems c ts = (ts, {})
  | [], _, _ => rfl
  | t :: rest, h, c => by
    simp only [isCalmItems, Bool.and_eq_true] at h
    have hitem : item c t = (t, {}) := by
      unfold item
      split
      · exact signalled_of_isCalm h.1 c
      · rfl
    rw [signalledItems_cons, hitem, signalledItems_of_isCalm h.2 c, join_none]

end

theorem part_of_isCalm (h : isCalm v) (c : Nesting) (key : String) : part c key v = (v, {}) := by
  unfold part
  split
  · exact signalled_of_isCalm h c
  · rfl

end Downlevel.Flow
