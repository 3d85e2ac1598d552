import Downlevel.Node.Visit

/-!
# `Proofs.Node.Visit`: what a visit gives

A visit that does not fail gives a result and a new state. What it gives is put together from what its
parts give, field by field and item by item.
-/

namespace Downlevel.Node

open Tree

variable {C σ α β : Type}

/-- A visit gives a result and a new state. -/
def Yields (x : Visit σ α) (s : σ) (a : α) (s' : σ) : Prop := x.run s = .ok (a, s')

namespace Yields

theorem pure (s : σ) (a : α) : Yields (Pure.pure a) s a s := rfl

theorem map {x : Visit σ α} {s s' : σ} {a : α} (h : Yields x s a s') (f : α → β) :
    Yields (f <$> x) s (f a) s' := by
  rw [Yields, StateT.run_map, h]
  rfl

theorem bind {x : Visit σ α} {f : α → Visit σ β} {s s' s'' : σ} {a : α} {b : β}
    (h : Yields x s a s') (hf : Yields (f a) s' b s'') : Yields (x >>= f) s b s'' := by
  rw [Yields, StateT.run_bind, h]
  exact hf

end Yields

/-! ## One field, one item -/

/-- Visits one field. -/
def visitEntry (handle : Handler C σ) (contexts : String → Option C) (k : String) (v : Tree) :
    Visit σ (List (String × Tree)) :=
  match contexts k with
  | some c =>
    if isSyntaxKey k && isVisited v then Outcome.inField k v <$> visit handle c v else pure [(k, v)]
  | none => pure [(k, v)]

theorem visitFields_cons (handle : Handler C σ) (contexts : String → Option C) (k : String) (v : Tree)
    (rest : Fields) :
    visitFields handle contexts ((k, v) :: rest) =
      visitEntry handle contexts k v >>= fun head =>
        visitFields handle contexts rest >>= fun tail => pure (head ++ tail) := by
  rw [visitFields, visitEntry]
  cases contexts k with
  | none => rfl
  | some c =>
    simp only
    split <;> rfl

/-- Visits one item. -/
def visitItem (handle : Handler C σ) (c : C) (t : Tree) : Visit σ (List Tree) :=
  if t.isNode then Outcome.inList <$> visit handle c t else pure [t]

theorem visitItems_cons (handle : Handler C σ) (c : C) (t : Tree) (rest : List Tree) :
    visitItems handle c (t :: rest) =
      visitItem handle c t >>= fun head =>
        visitItems handle c rest >>= fun tail => pure (head ++ tail) := by
  rw [visitItems, visitItem]
  split <;> rfl

section

variable {handle : Handler C σ} {s s' s'' : σ}

theorem yields_visitFields_cons {contexts : String → Option C} {k : String} {v : Tree}
    {rest head tail : Fields}
    (hhead : Yields (visitEntry handle contexts k v) s head s')
    (htail : Yields (visitFields handle contexts rest) s' tail s'') :
    Yields (visitFields handle contexts ((k, v) :: rest)) s (head ++ tail) s'' := by
  rw [visitFields_cons]
  exact hhead.bind (htail.bind (Yields.pure _ _))

theorem yields_visitItems_cons {c : C} {t : Tree} {rest head tail : List Tree}
    (hhead : Yields (visitItem handle c t) s head s')
    (htail : Yields (visitItems handle c rest) s' tail s'') :
    Yields (visitItems handle c (t :: rest)) s (head ++ tail) s'' := by
  rw [visitItems_cons]
  exact hhead.bind (htail.bind (Yields.pure _ _))

end

end Downlevel.Node
