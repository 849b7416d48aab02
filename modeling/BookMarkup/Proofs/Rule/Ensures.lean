import BookMarkup.Proofs.Rule.Run

/-!
What edits keep, run by run. A run that succeeds leads from one assertion about the tree to another
one; steps are chained, and loops keep what their steps keep. What an assertion says of the labels
alone is kept whenever nodes are moved.
-/

namespace BookMarkup.Rule

open BookMarkup.Tree

/-! ### Steps and loops -/

def Ensures {α : Type} (P : Tree → Prop) (e : Edit α) (Q : α → Tree → Prop) : Prop :=
  ∀ t a t', P t → e.run t = .ok a t' → Q a t'

abbrev Maintains {α : Type} (P : Tree → Prop) (e : Edit α) : Prop :=
  Ensures P e fun _ => P

section Ensures

variable {α β : Type} {P P' : Tree → Prop} {Q : α → Tree → Prop} {R : β → Tree → Prop}
  {e : Edit α} {f : α → Edit β}

theorem Ensures.bind (he : Ensures P e Q) (hf : ∀ a, Ensures (Q a) (f a) R) :
    Ensures P (e >>= f) R := by
  intro t b t' ht hrun
  rw [EStateM.run_bind] at hrun
  cases hr : e.run t with
  | error x t₁ => simp [hr] at hrun
  | ok a t₁ =>
      rw [hr] at hrun
      exact hf a t₁ b t' (he t a t₁ ht hr) hrun

theorem Ensures.mono (he : Ensures P e Q) (h : ∀ t, P' t → P t)
    {Q' : α → Tree → Prop} (h' : ∀ a t, Q a t → Q' a t) : Ensures P' e Q' :=
  fun t a t' ht hrun => h' a t' (he t a t' (h t ht) hrun)

theorem maintains_pure (a : α) : Maintains P (pure a : Edit α) := by
  intro t b t' ht hrun
  rw [EStateM.run_pure, EStateM.Result.ok.injEq] at hrun
  exact hrun.2 ▸ ht

theorem maintains_ask (question : Tree → Except Fault α) : Maintains P (Edit.ask question) := by
  intro t a t' ht hrun
  rw [run_ask] at hrun
  split at hrun
  · exact (EStateM.Result.ok.inj hrun).2 ▸ ht
  · simp at hrun

theorem maintains_get : Maintains P (get : Edit Tree) := by
  intro t a t' ht hrun
  rw [EStateM.run_get, EStateM.Result.ok.injEq] at hrun
  exact hrun.2 ▸ ht

theorem maintains_throw (x : Tree.Failure) : Maintains P (throw x : Edit α) := by
  intro t a t' _ hrun
  have hthrow : (throw x : Edit α).run t = .error x t := rfl
  simp [hthrow] at hrun

theorem maintains_modify {g : Tree → Tree} (h : ∀ t, P t → P (g t)) :
    Maintains P (modify g : Edit PUnit) := by
  intro t a t' ht hrun
  rw [EStateM.run_modify, EStateM.Result.ok.injEq] at hrun
  exact hrun.2 ▸ h t ht

theorem maintains_ite {c : Prop} [Decidable c] {e e' : Edit α} (h : Maintains P e)
    (h' : Maintains P e') : Maintains P (if c then e else e') := by
  split
  · exact h
  · exact h'

theorem maintains_select (path : String) : Maintains P (Edit.select path) := by
  intro t a t' ht hrun
  simp only [Edit.select, EStateM.run] at hrun
  split at hrun
  · exact (EStateM.Result.ok.inj hrun).2 ▸ ht
  · simp at hrun

theorem maintains_tally {f : NodeId → Edit Nat} (hf : ∀ id, Maintains P (f id))
    (ids : List NodeId) : Maintains P (Edit.tally f ids) := by
  induction ids with
  | nil => exact maintains_pure 0
  | cons id ids ih => exact (hf id).bind fun _ => ih.bind fun _ => maintains_pure _

theorem maintains_forM {f : NodeId → Edit PUnit} (hf : ∀ id, Maintains P (f id))
    (ids : List NodeId) : Maintains P (ids.forM f) := by
  induction ids with
  | nil => exact maintains_pure _
  | cons id ids ih => exact (hf id).bind fun _ => ih

theorem maintains_mapM {f : NodeId → Edit β} (hf : ∀ id, Maintains P (f id))
    (ids : List NodeId) : Maintains P (ids.mapM f) := by
  induction ids with
  | nil => exact maintains_pure _
  | cons id ids ih =>
      rw [List.mapM_cons]
      exact (hf id).bind fun _ => ih.bind fun _ => maintains_pure _

theorem of_runAll {rules : List Rule} (hrules : ∀ r ∈ rules, Maintains P r.apply) {t t' : Tree}
    {n : Nat} (ht : P t) (hrun : (runAll rules).run t = .ok n t') : P t' := by
  induction rules generalizing t n with
  | nil =>
      have hnil : (runAll []).run t = .ok 0 t := rfl
      rw [hnil, EStateM.Result.ok.injEq] at hrun
      exact hrun.2 ▸ ht
  | cons r rules ih =>
      cases hr : r.apply.run t with
      | error f t₁ => simp [runAll_cons_of_error hr] at hrun
      | ok m t₁ =>
          rw [runAll_cons_of_ok hr] at hrun
          cases hrest : (runAll rules).run t₁ with
          | error f t₂ => simp [hrest] at hrun
          | ok k t₂ =>
              simp only [hrest, EStateM.Result.ok.injEq] at hrun
              exact ih (fun q hq => hrules q (List.mem_cons_of_mem r hq))
                (hrules r List.mem_cons_self t m t₁ ht hr) (hrun.2 ▸ hrest)

end Ensures

/-! ### Links -/

/-- What `P` says is told by the labels of the nodes, wherever these stand. -/
def ByLabels (P : Tree → Prop) : Prop :=
  ∀ t t', (∀ i, t'.contentOf i = t.contentOf i) → P t → P t'

theorem contentOf_unlink (t : Tree) (p c i : NodeId) :
    (t.unlink p c).contentOf i = t.contentOf i := by
  simp only [unlink, contentOf, get?_update]
  split <;> split <;> cases t.get? i <;> rfl

theorem contentOf_linked (t : Tree) (p : NodeId) (index : Nat) (c i : NodeId) :
    (t.link p index c).contentOf i = t.contentOf i := by
  simp only [link, contentOf, get?_update]
  split <;> split <;> cases t.get? i <;> rfl

section Links

variable {P : Tree → Prop} (hP : ByLabels P)

include hP

theorem ByLabels.detach (id : NodeId) : Maintains P (Edit.detach id) := by
  refine (maintains_ask _).bind fun n => ?_
  cases n.parent with
  | none =>
      refine maintains_modify fun t ht => ?_
      split
      · exact hP t _ (fun _ => rfl) ht
      · exact ht
  | some parent =>
      exact (maintains_ask _).bind fun _ => maintains_modify fun t ht =>
        hP t _ (contentOf_unlink t parent id) ht

theorem ByLabels.insertChild (parent : NodeId) (index : Nat) (child : NodeId) :
    Maintains P (Edit.insertChild parent index child) := by
  refine maintains_get.bind fun u => maintains_ite (maintains_throw _) ?_
  exact (maintains_ask _).bind fun _ => (hP.detach child).bind fun _ =>
    (maintains_ask _).bind fun _ => maintains_modify fun t ht =>
      hP t _ (contentOf_linked t parent index child) ht

theorem ByLabels.appendChild (parent child : NodeId) :
    Maintains P (Edit.appendChild parent child) :=
  (maintains_ask _).bind fun _ => hP.insertChild parent _ child

theorem ByLabels.insertBeside (offset : Nat) (reference id : NodeId) :
    Maintains P (Edit.insertBeside offset reference id) := by
  refine maintains_ite (maintains_pure _) ?_
  refine (hP.detach id).bind fun _ => (maintains_ask _).bind fun parent => ?_
  cases parent with
  | none => exact maintains_throw _
  | some parent =>
      exact (maintains_ask _).bind fun _ => (maintains_ask _).bind fun _ =>
        hP.insertChild parent _ id

end Links

end BookMarkup.Rule
