import BookMarkup.Proofs.Rule.Rearranged
import BookMarkup.Proofs.Selector
import Mathlib.Algebra.GroupWithZero.Nat

/-!
How rules run: loops with an invariant that mentions the nodes still to come, and rules one after the
other.
-/

namespace BookMarkup

namespace Rule

open BookMarkup.Tree

/-! ### Loops -/

/-- A loop whose step keeps an invariant of the nodes still to come ends with the invariant of
none. -/
theorem run_tally (f : NodeId → Edit Nat) (I : List NodeId → Tree → Prop)
    (step : ∀ id ids t, I (id :: ids) t → ∃ n t', (f id).run t = .ok n t' ∧ I ids t')
    {ids : List NodeId} {t : Tree} (h : I ids t) :
    ∃ n t', (Edit.tally f ids).run t = .ok n t' ∧ I [] t' := by
  induction ids generalizing t with
  | nil => exact ⟨0, t, rfl, h⟩
  | cons id ids ih =>
      obtain ⟨n, t₁, hrun, h₁⟩ := step id ids t h
      obtain ⟨m, t₂, hrest, h₂⟩ := ih h₁
      exact ⟨n + m, t₂, by simp only [Edit.tally, EStateM.run_bind, hrun, hrest,
        EStateM.run_pure], h₂⟩

/-- A loop with an invariant of the nodes that it has passed, in which it is known beforehand what
each step counts. No node comes twice. -/
theorem run_tally_prefix {ids : List NodeId} (hd : ids.Nodup) (f : NodeId → Edit Nat)
    (count : NodeId → Nat) (I : List NodeId → Tree → Prop)
    (step : ∀ done id rest t, done ++ id :: rest = ids → id ∉ done → I done t →
      ∃ t', (f id).run t = .ok (count id) t' ∧ I (done ++ [id]) t')
    {t : Tree} (h : I [] t) :
    ∃ t', (Edit.tally f ids).run t = .ok (ids.map count).sum t' ∧ I ids t' := by
  suffices hrest : ∀ rest done u, done ++ rest = ids → I done u →
      ∃ t', (Edit.tally f rest).run u = .ok (rest.map count).sum t' ∧ I ids t' from
    hrest ids [] t rfl h
  intro rest
  induction rest with
  | nil => exact fun done u hids hu => ⟨u, rfl, by simpa [← hids] using hu⟩
  | cons id rest ih =>
      intro done u hids hu
      obtain ⟨u', hrun, hu'⟩ := step done id rest u hids (not_mem_of_nodup (hids ▸ hd)).1 hu
      obtain ⟨t', hrest, ht'⟩ := ih (done ++ [id]) u' (by simpa using hids) hu'
      refine ⟨t', ?_, ht'⟩
      simp only [Edit.tally, EStateM.run_bind, hrun, hrest, EStateM.run_pure, List.map_cons,
        List.sum_cons]

/-- A loop that counts some of its nodes, each once. -/
theorem sum_map_counted (counted : NodeId → Bool) (ids : List NodeId) :
    (ids.map fun id => if counted id then 1 else 0).sum = (ids.filter counted).length := by
  induction ids with
  | nil => rfl
  | cons id ids ih =>
      rw [List.map_cons, List.sum_cons, ih]
      by_cases h : counted id
      · rw [if_pos h, List.filter_cons_of_pos h, List.length_cons, Nat.add_comm]
      · rw [if_neg h, List.filter_cons_of_neg h, Nat.zero_add]

theorem run_forM (f : NodeId → Edit Unit) (I : List NodeId → Tree → Prop)
    (step : ∀ id ids t, I (id :: ids) t → ∃ t', (f id).run t = .ok () t' ∧ I ids t')
    {ids : List NodeId} {t : Tree} (h : I ids t) :
    ∃ t', (ids.forM f).run t = .ok () t' ∧ I [] t' := by
  induction ids generalizing t with
  | nil => exact ⟨t, rfl, h⟩
  | cons id ids ih =>
      obtain ⟨t₁, hrun, h₁⟩ := step id ids t h
      obtain ⟨t₂, hrest, h₂⟩ := ih h₁
      refine ⟨t₂, ?_, h₂⟩
      change (f id >>= fun _ => ids.forM f).run t = _
      simp only [EStateM.run_bind, hrun, hrest]

theorem run_tally_one (f : NodeId → Edit Unit) (ids : List NodeId) (t : Tree) :
    (Edit.tally (fun id => do f id; return 1) ids).run t =
      match (ids.forM f).run t with
      | .ok _ t' => .ok ids.length t'
      | .error e t' => .error e t' := by
  induction ids generalizing t with
  | nil => rfl
  | cons id ids ih =>
      have hcons : ((id :: ids).forM f).run t = (f id >>= fun _ => ids.forM f).run t := rfl
      rw [hcons]
      simp only [Edit.tally, EStateM.run_bind, EStateM.run_pure]
      cases (f id).run t with
      | error e t₁ => rfl
      | ok a t₁ =>
          simp only [ih]
          cases (ids.forM f).run t₁ with
          | error e t₂ => rfl
          | ok b t₂ => simp [Nat.add_comm]

theorem count_tally_one {f : NodeId → Edit Unit} {ids : List NodeId} {t t' : Tree} {n : Nat}
    (h : (Edit.tally (fun id => do f id; return 1) ids).run t = .ok n t') : n = ids.length := by
  rw [run_tally_one] at h
  cases hrun : (ids.forM f).run t with
  | error e u =>
      rw [hrun] at h
      cases h
  | ok a u =>
      rw [hrun] at h
      exact (EStateM.Result.ok.inj h).1.symm

theorem run_select_tally {path : String} {s : Selector} (hs : Selector.parse path = .ok s)
    (f : NodeId → Edit Nat) (I : List NodeId → Tree → Prop)
    (step : ∀ id ids t, I (id :: ids) t → ∃ n t', (f id).run t = .ok n t' ∧ I ids t')
    {t : Tree} (h : I (s.select t) t) :
    ∃ n t', (do Edit.tally f (← Edit.select path) : Edit Nat).run t = .ok n t' ∧ I [] t' := by
  rw [EStateM.run_bind, run_select hs]
  exact run_tally f I step h

theorem run_select_tally_prefix {path : String} {s : Selector} (hs : Selector.parse path = .ok s)
    {t : Tree} (hf : Forest t) (f : NodeId → Edit Nat) (count : NodeId → Nat)
    (I : List NodeId → Tree → Prop)
    (step : ∀ done id rest u, done ++ id :: rest = s.select t → id ∉ done → I done u →
      ∃ u', (f id).run u = .ok (count id) u' ∧ I (done ++ [id]) u')
    (h : I [] t) :
    ∃ t', (do Edit.tally f (← Edit.select path) : Edit Nat).run t =
      .ok ((s.select t).map count).sum t' ∧ I (s.select t) t' := by
  rw [EStateM.run_bind, run_select hs]
  exact run_tally_prefix (hf.nodup_select s) f count I step h

/-! ### Rules in order -/

theorem runAll_cons_of_ok {r : Rule} {rules : List Rule} {t t' : Tree} {n : Nat}
    (h : r.apply.run t = .ok n t') :
    (runAll (r :: rules)).run t =
      match (runAll rules).run t' with
      | .ok m t'' => .ok (n + m) t''
      | .error f t'' => .error f t'' := by
  simp only [runAll, EStateM.run_bind, EStateM.run_adaptExcept, h]
  cases (runAll rules).run t' <;> rfl

theorem runAll_cons_of_error {r : Rule} {rules : List Rule} {t t' : Tree} {f : Tree.Failure}
    (h : r.apply.run t = .error f t') :
    (runAll (r :: rules)).run t = .error ⟨r.name, f⟩ t' := by
  simp only [runAll, EStateM.run_bind, EStateM.run_adaptExcept, h]

end Rule

end BookMarkup
