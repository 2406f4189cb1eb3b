import Mathlib.Order.Nat
import ObjectRegistry.Proofs.Nesting

namespace ObjectRegistry

variable {σ ρ κ : Type}

namespace Machine

section Starts

variable [Language ρ κ] {client : Client σ ρ κ} {m m' : Machine σ ρ κ} {n : Name}

def Builds (n : Name) (m : Machine σ ρ κ) : Prop :=
  ∃ ownsWindow factory, m.registry.launch? m.deed = some (.construct n ownsWindow, factory)

theorem answersAfter_of_gives {k : Nat} (h : (run client k m).gives client m.duties.length ≠ none) :
    ∃ j ≤ k, ∃ a, m.AnswersAfter client j a := by
  classical
  have hex : ∃ j, (run client j m).gives client m.duties.length ≠ none := ⟨k, h⟩
  obtain ⟨a, ha⟩ := Option.ne_none_iff_exists'.1 (Nat.find_spec hex)
  refine ⟨Nat.find hex, Nat.find_min' hex h, a, ha, fun j hj => ?_⟩
  exact Classical.not_not.1 (Nat.find_min hex hj)

theorem answered_or_making (hb : m.Builds n) (h : m.step client = some m') (k : Nat) :
    (∃ j ≤ k, ∃ a, m.AnswersAfter client j a) ∨ n ∈ (run client (k + 1) m).making := by
  obtain ⟨ownsWindow, factory, hl⟩ := hb
  by_cases hg : ∃ j ≤ k, (run client j m).gives client m.duties.length ≠ none
  · obtain ⟨j, hj, hg⟩ := hg
    obtain ⟨i, hi, ha⟩ := answersAfter_of_gives hg
    exact .inl ⟨i, Nat.le_trans hi hj, ha⟩
  · right
    have hd := duties_of_launch h hl
    obtain ⟨above, ha⟩ := frame_run Registry.reply?_of_ends_construct hd (k := k) fun j hj => by
      rw [← run_succ_of_step h]
      exact Classical.not_not.1 fun hne => hg ⟨j + 1, hj, hne⟩
    rw [run_succ_of_step h, making, ha]
    exact List.mem_filterMap.2 ⟨_, List.mem_append_right _ List.mem_cons_self, rfl⟩

theorem ended_of_not_making {k : Nat} (hb : m.Builds n)
    (hk : n ∉ (run client (k + 1) m).making) :
    ∃ j ≤ k, ∃ a ownsWindow, m.AnswersAfter client j a ∧
      (run client j m).deed.ends? = some (.construct n ownsWindow) := by
  obtain ⟨ownsWindow, factory, hl⟩ := hb
  obtain ⟨m', h⟩ := step_of_asked client (Registry.launch?_construct hl).1
  obtain ⟨j, hj, a, ha⟩ := (answered_or_making ⟨ownsWindow, factory, hl⟩ h k).resolve_right hk
  have hend := ends_of_answersAfter Registry.reply?_of_ends_construct hl ha
  exact ⟨j, hj, a, ownsWindow, ha, hend.1⟩

theorem finished_of_answersAfter {k : Nat} {o : Handle} (hb : m.Builds n)
    (ha : m.AnswersAfter client k (.made (.ok o))) :
    (run client (k + 1) m).registry.store.finished[n]? = some o := by
  obtain ⟨ownsWindow, factory, hl⟩ := hb
  obtain ⟨he, hr⟩ := ends_of_answersAfter Registry.reply?_of_ends_construct hl ha
  obtain ⟨m', hs, -, -⟩ := gives_inv ha.1
  rw [run_succ, hs, Option.getD_some, registry_step hs, Registry.finished_after]
  obtain ⟨outcome, hd⟩ | ⟨p, hd⟩ := Deed.ends?_construct he
  · rw [hd] at hr ⊢
    cases outcome with
    | error fault => cases hr
    | ok made =>
      cases hr
      simp only [Deed.purges, Deed.built?, Bool.false_eq_true, ↓reduceIte, Option.some_or]
  · rw [hd] at hr
    cases hr

/-- The next step takes the object of `n` away. -/
def Purges (client : Client σ ρ κ) (n : Name) (m : Machine σ ρ κ) : Prop :=
  m.deed.purges n = true ∧ m.registry.store.finished[n]? ≠ none ∧
    (run client 1 m).registry.store.finished[n]? = none

theorem purged_of_gone {k : Nat} (h : m.registry.store.finished[n]? ≠ none)
    (hk : (run client k m).registry.store.finished[n]? = none) :
    ∃ j < k, (run client j m).Purges client n := by
  refine Classical.byContradiction fun hno => ?_
  refine run_keeps (P := fun m => m.registry.store.finished[n]? ≠ none) h ?_ hk
  intro j hj m' hf hs hgone
  obtain ⟨o, ho⟩ := Option.ne_none_iff_exists'.1 hf
  refine hno ⟨j, hj, ?_, hf, by rw [run_succ_of_step hs, run_zero, hgone]⟩
  rw [registry_step hs, Registry.finished_after, ho, Option.some_or] at hgone
  split at hgone
  · assumption
  · cases hb : (run client j m).deed.built? n <;> rw [hb] at hgone <;> cases hgone

end Starts

variable {client : Client σ (Request κ) κ} {n : Name}

/-- In a run that exempts no name, a factory of a name starts only after the one started before has
ended, be it with an object, a fault or a panic. If it ended with an object, then between that end
and the new start there is a step that takes the object of the name away. -/
theorem made_again_only_if_purged {settings : Settings} {memory : σ}
    {main : Program σ (Request κ) Unit} {i j : Nat} (hij : i < j)
    (ht : ∀ d ∈ deeds client j (.ofMain settings.registry memory main), d.exempts = false)
    (hi : (run client i (.ofMain settings.registry memory main)).Builds n)
    (hj : (run client j (.ofMain settings.registry memory main)).Builds n) :
    let m := fun k => run client k (.ofMain settings.registry memory main)
    (∃ k a, i + k < j ∧ (m i).AnswersAfter client k a) ∧
      ∀ k o, (m i).AnswersAfter client k (.made (.ok o)) →
        ∃ l, i + k < l ∧ l < j ∧ (m l).Purges client n := by
  intro m
  obtain ⟨d, rfl⟩ := Nat.exists_eq_add_of_lt hij
  have hrun (k : Nat) : m (i + k) = run client k (m i) := run_add i k _
  obtain ⟨ownsWindow, factory, hl⟩ := hj
  obtain ⟨-, -, hfinished, -, hmark, -⟩ := Registry.launch?_construct hl
  have hmaking : n ∉ (m (i + d + 1)).making := by
    have hn : (m (i + d + 1)).registry.Nests (m (i + d + 1)).duties := nests_run ht
    intro hmk
    rw [hn.isUnderway.2 hmk] at hmark
    cases hmark
  have hended : ∃ k ≤ d, ∃ a, (m i).AnswersAfter client k a := by
    obtain ⟨ownsWindow', factory', hl'⟩ := hi
    obtain ⟨m', hs⟩ := step_of_asked client (Registry.launch?_construct hl').1
    obtain hended | hmk := answered_or_making ⟨ownsWindow', factory', hl'⟩ hs d
    · exact hended
    · rw [← hrun] at hmk
      exact absurd hmk hmaking
  obtain ⟨k, hk, a, ha⟩ := hended
  refine ⟨⟨k, a, by omega, ha⟩, fun k' o ho => ?_⟩
  obtain rfl := (ha.unique ho).1
  have hthere : (m (i + (k + 1))).registry.store.finished[n]? ≠ none := by
    rw [hrun, finished_of_answersAfter hi ho]
    exact Option.some_ne_none o
  have hsplit : i + d + 1 = i + (k + 1) + (d - k) := by omega
  have hgone : (run client (d - k) (m (i + (k + 1)))).registry.store.finished[n]? = none := by
    rw [← run_add, ← hsplit]
    exact hfinished
  obtain ⟨l, hlt, hp⟩ := purged_of_gone hthere hgone
  rw [← run_add] at hp
  exact ⟨i + (k + 1) + l, by omega, by omega, hp⟩

def restless : Client Nat (Request Bool) Bool where
  factory
    | true => .access (· + 1) fun count => .done (.ok ⟨count, .unit⟩)
    | false => do
      let _ ← .ask (.obtain "n" true)
      let _ ← .ask (.drop "n")
      let _ ← .ask (.obtain "n" true)
      return .error (.raised "no")
  early count := return ⟨0, .bool count⟩
  disposer _ := return .ok ()
  hear _ memory := memory

def restlessMain : Program Nat (Request Bool) Unit := do
  let _ ← .ask (.obtain "outer" false)

theorem made_again_only_if_purged_restless :
    let m := fun k => run restless k (.ofMain ({} : Settings).registry 0 restlessMain)
    (m 1).Builds "n" ∧ (m 5).Builds "n" ∧
      (m 1).AnswersAfter restless 2 (.made (.ok ⟨0, .unit⟩)) ∧
      ∃ l, 1 + 2 < l ∧ l < 5 ∧ (m l).Purges restless "n" := by
  intro m
  have hi : (m 1).Builds "n" := ⟨false, true, rfl⟩
  have hj : (m 5).Builds "n" := ⟨false, true, by rfl⟩
  have ha : (m 1).AnswersAfter restless 2 (.made (.ok ⟨0, .unit⟩)) :=
    ⟨rfl, fun | 0, _ => rfl | 1, _ => rfl⟩
  have h := made_again_only_if_purged (by decide) (by decide) hi hj
  exact ⟨hi, hj, ha, h.2 2 ⟨0, .unit⟩ ha⟩

end Machine

end ObjectRegistry
