import Downlevel.Proofs.Arrow.Rewrite
import Downlevel.Proofs.Grammar.Objects
import Downlevel.Proofs.Lower.Default
import Downlevel.Proofs.Lower.Method
import Downlevel.Proofs.Lower.Template
import Downlevel.Proofs.Settled.Tally

/-!
# `Proofs.Marks.Lower`: lowerings that make no copies

Concise methods, template literals and arrow functions: what a lowering takes over from a node, it takes over
once.
-/

namespace Downlevel.Lower

open Tree Node

/-- A run of a handler that makes no copies. -/
theorem copies_run_le {C : Type} {P : Tree → Prop} {m : Nat} {handle : Handler C Work}
    (hhandle : HandlerFollows handle (MakesNoCopy P m)) {c : C} {t : Tree} (hall : ∀ x ∈ t.objects, P x)
    {out : Lowered} (h : run handle c t = .ok out) : copies m out.tree ≤ copies m t := by
  obtain ⟨⟨o, w⟩, hvisit, h⟩ := bind_eq_ok h
  cases h
  exact copies_visit_le hhandle hall hvisit

/-! ## Methods -/

namespace Method

variable {m : Nat}

theorem copies_property_le {t t' : Tree} {s s' : Work} (h : Yields (property t) s t' s') :
    copies m t' ≤ copies m t := by
  unfold property at h
  split at h
  · obtain ⟨rfl, rfl⟩ := h.pure_inv
    exact Nat.le_refl _
  · split at h
    · obtain ⟨-, s₁, -, h⟩ := h.bind_inv
      obtain ⟨rfl, rfl⟩ := h.pure_inv
      exact Nat.le_refl _
    · obtain ⟨rfl, rfl⟩ := h.pure_inv
      exact copies_set_le rfl (Nat.zero_le _)

theorem handle_makesNoCopy : HandlerFollows handle (MakesNoCopy Any m) := by
  intro c k fs s o s' hparts h
  unfold handle at h
  obtain ⟨t, s₁, ht, h⟩ := h.bind_inv
  have hle := hparts.copies_descend_le all_any ht
  split at h
  · obtain ⟨p, s₂, hp, h⟩ := h.bind_inv
    obtain ⟨rfl, rfl⟩ := h.pure_inv
    exact makesNoCopy_keep fun _ => (Nat.le_trans (copies_property_le hp) hle)
  · obtain ⟨rfl, rfl⟩ := h.pure_inv
    exact makesNoCopy_keep fun _ => hle

theorem copies_lower_le {t : Tree} {out : Lowered} (h : lower t = .ok out) :
    copies m out.tree ≤ copies m t := copies_run_le handle_makesNoCopy all_any h

end Method

/-! ## Templates -/

namespace Template

variable {m : Nat}

theorem copiesIn_segment_le (quasi : Tree) : copiesIn m (segment quasi) ≤ copies m quasi := by
  have hvalue := copies_get_le m "value" rfl quasi
  have hcooked := copies_get_le m "cooked" rfl (quasi.get "value")
  unfold segment
  simp only
  split
  · rw [copiesIn_cons, copies_literal, copiesIn_nil]
    omega
  · exact Nat.zero_le _

theorem copiesIn_operands_le (quasis expressions : List Tree) :
    copiesIn m (operands quasis expressions) ≤ copiesIn m quasis + copiesIn m expressions := by
  induction quasis generalizing expressions with
  | nil => exact Nat.zero_le _
  | cons q qs ih =>
    have hsegment := copiesIn_segment_le (m := m) q
    cases expressions with
    | nil =>
      have hrest := ih []
      rw [operands, copiesIn_append, copiesIn_cons]
      omega
    | cons e es =>
      have hrest := ih es
      rw [operands, copiesIn_append, copiesIn_cons, copiesIn_cons, copiesIn_cons]
      omega

theorem copiesIn_startWithString (operands : List Tree) :
    copiesIn m (startWithString operands) = copiesIn m operands := by
  unfold startWithString
  split
  · rfl
  · split <;> simp
  · split <;> simp

theorem copies_chain {operands : List Tree} {sum : Tree} (h : chain operands = some sum) :
    copies m sum = copiesIn m operands := by
  have hfold : ∀ (rest : List Tree) (first : Tree),
      copies m (rest.foldl (fun sum t => binary "+" sum t) first) = copies m first + copiesIn m rest := by
    intro rest
    induction rest with
    | nil => exact fun first => rfl
    | cons t rest ih =>
      intro first
      rw [List.foldl_cons, ih, copies_binary, copiesIn_cons, Nat.add_assoc]
  cases operands with
  | nil => cases h
  | cons first rest =>
    cases h
    rw [hfold, copiesIn_cons]

theorem copies_concatenation_le (t : Tree) : copies m (concatenation t) ≤ copies m t := by
  have hquasis := copiesIn_items_le (m := m) (t.get "quasis")
  have hexpressions := copiesIn_items_le (m := m) (t.get "expressions")
  have hboth := copies_get_add_get_le m "quasis" "expressions" (by decide) rfl
    rfl t
  have hoperands := copiesIn_operands_le (m := m) (t.children "quasis") (t.children "expressions")
  unfold children at hoperands
  unfold concatenation
  split
  · rename_i sum hsum
    rw [copies_located, copies_chain hsum, copiesIn_startWithString, children, children]
    omega
  · simp

theorem handle_makesNoCopy : HandlerFollows handle (MakesNoCopy Any m) := by
  intro position k fs s o s' hparts h
  unfold handle at h
  split at h
  · exact makesNoCopy_passOver hparts h
  · split at h
    · obtain ⟨-, s₁, -, h⟩ := h.bind_inv
      obtain ⟨tag, s₂, htag, h⟩ := h.bind_inv
      obtain ⟨quasi, s₃, hquasi, h⟩ := h.bind_inv
      obtain ⟨-, s₄, -, h⟩ := h.bind_inv
      obtain ⟨rfl, -⟩ := h.pure_inv
      have hset : copies m ((Tree.obj k fs).set "tag" tag.value) ≤ copies m (.obj k fs) := by
        refine copies_set_le rfl ?_
        rw [copies_value]
        exact hparts.copiesIn_field_le all_any rfl htag
      refine makesNoCopy_keep fun _ => ?_
      split
      · refine Nat.le_trans (copies_set_le rfl ?_) hset
        rw [get_set_of_ne (by decide), copies_value]
        exact hparts.copiesIn_field_le all_any rfl hquasi
      · exact hset
    · obtain ⟨t, ht, rfl⟩ := h.map_inv
      exact makesNoCopy_keep fun _ =>
        (Nat.le_trans (copies_concatenation_le t) (hparts.copies_descend_le all_any ht))
    · exact makesNoCopy_passOver hparts h

theorem copies_lower_le {t : Tree} {out : Lowered} (h : lower t = .ok out) :
    copies m out.tree ≤ copies m t := copies_run_le handle_makesNoCopy all_any h

end Template

/-! ## Arrow functions -/

namespace Arrow

open Grammar

variable {m : Nat} {a : AliasNames} {c : Context} {s : Symbol} {t : Tree}

theorem copies_mapNodes_le {f : Tree → Tree} {v : Tree}
    (h : ∀ y ∈ nodesIn v, copies m (f y) ≤ copies m y) : copies m (mapNodes f v) ≤ copies m v := by
  cases v with
  | list xs =>
    refine copiesIn_map_le fun y hy => ?_
    split
    · rename_i hnode
      exact h y (mem_nodesIn.mpr ⟨.inr hy, hnode⟩)
    · exact Nat.le_refl _
  | obj k fs =>
    cases hnode : (Tree.obj k fs).isNode with
    | true =>
      rw [mapNodes_of_isNode hnode]
      refine h _ ?_
      rw [nodesIn_of_isNode hnode]
      exact List.mem_singleton_self _
    | false =>
      exact Nat.le_of_eq (congrArg _ (mapNodes_of_not_visited (by rw [isVisited, hnode]; rfl)))
  | _ => exact Nat.le_refl _

/-- Changing the children of a node. -/
theorem copies_mapChildren_le {f : String → Tree → Tree}
    (h : ∀ p ∈ t.childNodes, copies m (f p.1 p.2) ≤ copies m p.2) :
    copies m (mapChildren f t) ≤ copies m t := by
  cases t with
  | obj k fs =>
    have hfields : ∀ gs : Fields, (∀ g ∈ gs, g ∈ fs) → copiesOf m (gs.map fun g =>
        (g.1, if isSyntaxKey g.1 then mapNodes (f g.1) g.2 else g.2)) ≤ copiesOf m gs := by
      intro gs
      induction gs with
      | nil => exact fun _ => Nat.le_refl _
      | cons g gs ih =>
        intro hgs
        rw [List.forall_mem_cons] at hgs
        have hrest := ih hgs.2
        rw [List.map_cons, copiesOf_cons, copiesOf_cons]
        cases hkey : isSyntaxKey g.1 with
        | false =>
          simp only [Bool.false_eq_true, if_false]
          omega
        | true =>
          have hvalue : copies m (mapNodes (f g.1) g.2) ≤ copies m g.2 :=
            copies_mapNodes_le fun y hy => h (g.1, y) (mem_childNodes.mpr ⟨g.2, hgs.1, hkey, hy⟩)
          simp only [if_true]
          split <;> omega
    have hle := hfields fs fun _ => id
    rw [mapChildren, copies_obj, copies_obj]
    omega
  | _ => exact Nat.le_refl _

theorem copies_blockBody_le (t : Tree) : copies m (blockBody t) ≤ copies m (t.get "body") := by
  unfold blockBody
  simp only
  split
  · split
    · simp
    · simp [record, copies_obj]
  · exact Nat.le_refl _

theorem copies_asFunction_le (t : Tree) : copies m (asFunction t) ≤ copies m t := by
  have hparams := copiesIn_items_le (m := m) (t.get "params")
  have hbody := copies_blockBody_le (m := m) t
  have hboth := copies_get_add_get_le m "params" "body" (by decide) rfl rfl t
  rw [asFunction, copies_functionExpression, children]
  omega

/-- New statements take no place of others. -/
theorem copies_withDeclarations_le (derived : Bool) {new : List Tree} (hnew : copiesIn m new = 0)
    (t : Tree) : copies m (withDeclarations derived new t) ≤ copies m t := by
  have hstatements : ∀ (n : Nat) (u : Tree), copies m (.list ((u.children "body").take n ++ new ++
      (u.children "body").drop n)) ≤ copies m (u.get "body") := by
    intro n u
    have hcut := copiesIn_take_add_drop (m := m) n (u.children "body")
    have hitems := copiesIn_items_le (m := m) (u.get "body")
    rw [children] at hcut
    rw [copies_list, copiesIn_append, copiesIn_append, hnew, children]
    omega
  unfold withDeclarations
  split
  · exact Nat.le_refl _
  · unfold setStatements statementsOf
    split
    · exact copies_set_le rfl (hstatements _ t)
    · exact copies_set_le rfl (copies_set_le rfl (hstatements _ (t.get "body")))

/-- **The rewriting of arrow functions makes no copies.** -/
theorem copies_rewrite_le (ht : Derives .any s t) : copies m (rewrite a c t) ≤ copies m t := by
  refine ht.inductionOnChildren (motive := fun t => ∀ c, copies m (rewrite a c t) ≤ copies m t) ?_ c
  intro s t ht ih c
  have hinside : copies m (mapChildren (rewriteChild a (contexts c t)) t) ≤ copies m t := by
    refine copies_mapChildren_le fun p hp => ?_
    cases hcontexts : contexts c t p.1 with
    | none => exact Nat.le_of_eq (congrArg _ (rewriteChild_none hcontexts p.2))
    | some d =>
      rw [rewriteChild_some hcontexts]
      exact ih p hp d
  rw [rewrite_eq ht.isObject]
  unfold finish
  split
  · exact Nat.le_trans (copies_withDeclarations_le _ (by unfold declarationsFor; split <;> split <;> simp) _) hinside
  · split
    · split
      · exact hinside
      · exact Nat.le_trans (copies_asFunction_le _) hinside
    · split
      · simp
      · split
        · simp
        · exact hinside

theorem copies_lower_le (ht : Derives .any .program t) {out : Lowered} (h : lower t = .ok out) :
    copies m out.tree ≤ copies m t := by
  obtain ⟨a, ds, -, hlower⟩ := lower_eq_rewrite ht
  rw [hlower] at h
  cases h
  exact copies_rewrite_le ht

end Arrow

/-! ## Default arguments -/

namespace Default

open Grammar

variable {m : Nat} {s : Symbol} {t : Tree}

/-- A check mentions its parameter twice, by its name; a name holds no objects. -/
theorem copies_check {target value : Tree} {text : String} (h : target.get "name" = .str text) :
    copies m (check target value) = copies m value := by
  have hname : copies m (sameName target) = 0 := by simp [sameName, h]
  simp [check, hname]

theorem copiesIn_checksOf_le {params : List Tree}
    (hnames : ∀ p ∈ params, isDefaulted p → ∃ text, (p.get "left").get "name" = .str text) :
    copiesIn m (params.map target) + copiesIn m (checksOf params) ≤ copiesIn m params := by
  induction params with
  | nil => exact Nat.le_refl _
  | cons p rest ih =>
    rw [List.forall_mem_cons] at hnames
    have hle := ih hnames.2
    rw [List.map_cons, checksOf_cons, target, copiesIn_cons, copiesIn_cons]
    split
    · rename_i hdefault
      obtain ⟨text, htext⟩ := hnames.1 hdefault
      have hboth := copies_get_add_get_le m "left" "right" (by decide) rfl rfl p
      rw [copiesIn_cons, checkOf, copies_check htext]
      omega
    · omega

theorem copies_withStatements_le (t : Tree) : copies m (withStatements t) ≤ copies m t := by
  unfold withStatements
  simp only
  split
  · split
    · exact Nat.le_refl _
    · exact copies_set_le rfl (copies_set_le rfl (Nat.zero_le _))
  · refine Nat.le_trans (copies_set_le rfl (Nat.zero_le _)) (copies_set_le rfl ?_)
    split
    · simp
    · simp [record, copies_obj]

theorem copies_moved_le (ht : Derives .any s t) (hfunction : t.isTypeIn functionTypes)
    (hpattern : hasPattern t = false) : copies m (moved t) ≤ copies m t := by
  -- All defaults belong to identifiers, which have texts as names.
  have hnames : ∀ p ∈ t.children "params", isDefaulted p →
      ∃ text, (p.get "left").get "name" = .str text := by
    intro p hp hdefault
    have hleft : Derives .any .pattern (p.get "left") :=
      (ht.function_params hfunction p hp).one (isType_iff.mp hdefault) rfl
    exact hleft.text (identifiers_of_hasPattern hpattern p hp hdefault) rfl
  have hsplit := copiesIn_checksOf_le (m := m) hnames
  have hitems := copiesIn_items_le (m := m) (t.get "params")
  have hwith := copies_withStatements_le (m := m) t
  simp only [moved]
  generalize hu : withStatements t = u at hwith ⊢
  have hget : u.get "params" = t.get "params" := hu ▸ get_withStatements (by decide) (by decide) t
  generalize hstatements : (u.get "body").children "body" = statements
  generalize hn : prologueLength statements true = n
  generalize (t.children "params").map target = targets at hsplit ⊢
  generalize checksOf (t.children "params") = checks at hsplit ⊢
  have hcut := copiesIn_take_add_drop (m := m) n statements
  have hbody := copies_set m "body" rfl (u.get "body")
    (.list (statements.take n ++ checks ++ statements.drop n))
  have hold := copiesIn_items_le (m := m) ((u.get "body").get "body")
  have hset := copies_set m "params" rfl u (.list targets)
  have hsetBody := copies_set m "body" rfl (u.set "params" (.list targets))
    ((u.get "body").set "body" (.list (statements.take n ++ checks ++ statements.drop n)))
  rw [children] at hstatements hsplit
  rw [hstatements] at hold
  rw [copies_list, copiesIn_append, copiesIn_append] at hbody
  rw [hget, copies_list] at hset
  rw [get_set_of_ne (by decide)] at hsetBody
  omega

theorem copies_function_le (ht : Derives .any s t) (hfunction : t.isTypeIn functionTypes) {r : Tree}
    {w w' : Work} (h : Yields (function t) w r w') : copies m r ≤ copies m t := by
  rcases function_cases h with ⟨-, rfl, -⟩ | ⟨-, ⟨-, rfl, -⟩ | ⟨hpattern, ⟨-, rfl, -⟩ | ⟨-, rfl, -⟩⟩⟩
  · exact Nat.le_refl _
  · exact Nat.le_refl _
  · exact copies_withStatements_le t
  · exact copies_moved_le ht hfunction hpattern

theorem handle_makesNoCopy : HandlerFollows handle (MakesNoCopy (IsPart .any) m) := by
  intro c k fs w o w' hparts h
  unfold handle at h
  obtain ⟨t, w₁, ht, h⟩ := h.bind_inv
  cases hfunction : (Tree.obj k fs).isTypeIn functionTypes with
  | false =>
    rw [hfunction, if_neg Bool.false_ne_true] at h
    obtain ⟨rfl, rfl⟩ := h.pure_inv
    exact makesNoCopy_keep fun hall => hparts.copies_descend_le hall ht
  | true =>
    rw [hfunction, if_pos rfl] at h
    obtain ⟨r, w₂, hr, h⟩ := h.bind_inv
    obtain ⟨rfl, rfl⟩ := h.pure_inv
    refine makesNoCopy_keep fun hall => ?_
    have hle := hparts.copies_descend_le hall ht
    -- The function is one of the grammar, with its parts lowered too.
    obtain ⟨s, hd⟩ : ∃ s, Derives .any s (.obj k fs) := by
      rcases hall _ (self_mem_objects rfl) with hd | ⟨-, hinert⟩
      · exact hd
      · obtain ⟨type, -, htype⟩ := isTypeIn_iff.mp hfunction
        rw [type?_of_isInert rfl hinert] at htype
        cases htype
    obtain ⟨t₁, w₃, ht₁, hd₁, htype⟩ :=
      (Survey.partsKeep handle_keeps hd).descend_all hd (fun _ => some ()) w
    obtain ⟨rfl, rfl⟩ := ht.unique ht₁
    exact Nat.le_trans (copies_function_le hd₁ ((isTypeIn_congr htype _).trans hfunction) hr) hle

theorem copies_lower_le (ht : Derives .any .program t) {out : Lowered} (h : lower t = .ok out) :
    copies m out.tree ≤ copies m t :=
  copies_run_le handle_makesNoCopy (isPart_of_fits t _ ht.fits) h

end Default

end Downlevel.Lower
