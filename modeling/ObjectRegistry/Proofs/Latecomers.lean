import ObjectRegistry.Proofs.Sweeping

namespace ObjectRegistry

variable {σ ρ κ : Type}

section Late

variable {r r' : Registry κ} {w w' : Walk κ} {early late : List (Name × κ)}

theorem Walk.Quiet.startsBeforeSweep {above : List (Walk κ)} (hq : Quiet w r w' r')
    (hentries : r.disposers.entries = early ++ late)
    (hall : ∀ v ∈ w :: above, v.StartsBeforeSweep (early.map (·.1))) :
    ∃ early' late', r'.disposers.entries = early' ++ late' ∧ late'.Sublist late ∧
      ∀ v ∈ w' :: above, v.StartsBeforeSweep (early'.map (·.1)) := by
  have hsub := hq.entries_sublist
  rw [hentries] at hsub
  obtain ⟨early', late', hentries', hearly, hlate⟩ := List.sublist_append_iff.1 hsub
  have hnames : early'.map (·.1) ⊆ early.map (·.1) := (hearly.map _).subset
  have hkept : early'.map (·.1) ⊆ r'.disposers.names := by
    rw [Disposers.names, hentries']
    exact List.map_subset _ (List.subset_append_left _ _)
  obtain ⟨hhead, hrest⟩ := List.forall_mem_cons.1 hall
  exact ⟨early', late', hentries', hlate,
    List.forall_mem_cons.2 ⟨hhead.quiet hq hnames hkept, fun v hv => (hrest v hv).mono hnames⟩⟩

theorem Registry.swept_moved {events : List Event} {early' late' : List (Name × κ)}
    (ht : w.turn r = .moved w' r' events) (hentries : r.disposers.entries = early ++ late)
    (hw : w.StartsBeforeSweep (early.map (·.1)))
    (hentries' : r'.disposers.entries = early' ++ late') (hlate : late'.Sublist late) :
    (r.swept (.turned w) ++ late').Subperm late := by
  by_cases hsweep : ∃ rest, w.tasks = .sweep :: rest
  · obtain ⟨rest, hsweep⟩ := hsweep
    obtain ⟨tasks, visited, report⟩ := w
    cases hsweep
    cases ht
    have hearly : early = [] := List.map_eq_nil_iff.1 (hw.sweep rfl).1
    have hnone : late' = [] := (List.append_eq_nil_iff.1 hentries'.symm).2
    have hswept : r.swept (.turned ⟨.sweep :: rest, visited, report⟩) = late := by
      rw [hearly] at hentries
      exact hentries
    rw [hswept, hnone, List.append_nil]
  · rw [r.swept_of_tasks (not_exists.1 hsweep)]
    exact hlate.subperm

namespace Machine

variable [Language ρ κ] {client : Client σ ρ κ} {m m' : Machine σ ρ κ} {below : List (Walk κ)}

/-- The callbacks in `late` are the last ones registered. No teardown above `below` will come to its
sweep with another one left. -/
def SweepsOnly (below : List (Walk κ)) (late : List (Name × κ)) (m : Machine σ ρ κ) : Prop :=
  ∃ above early, m.walks = above ++ below ∧ m.registry.disposers.entries = early ++ late ∧
    ∀ w ∈ above, w.StartsBeforeSweep (early.map (·.1))

theorem SweepsOnly.step (hm : m.SweepsOnly below late) (hlen : below.length < m.walks.length)
    (h : m.step client = some m') :
    ∃ late', m'.SweepsOnly below late' ∧
      (m.registry.swept m.deed ++ late').Subperm
        (late ++ (m.registry.accepted? m.deed).toList) := by
  obtain ⟨above, early, hwalks, hentries, hall⟩ := hm
  obtain - | ⟨top, above⟩ := above
  · rw [hwalks] at hlen
    exact absurd hlen (Nat.lt_irrefl _)
  have hs := strides h
  have hr := registry_step h
  simp only [SweepsOnly, hr]
  rw [hwalks] at hs
  generalize m.registry = r at hs hentries
  generalize m.deed = d at hs
  generalize m'.walks = walks' at hs
  have hsame : late.Subperm (late ++ []) := (List.sublist_append_left late []).subperm
  cases hs with
  | stay hd =>
    rw [r.swept_eq_nil hd, r.entries_after hd, hentries, List.append_assoc]
    exact ⟨_, ⟨_, _, rfl, rfl, hall⟩, List.Subperm.refl _⟩
  | one =>
    exact ⟨late, ⟨_ :: top :: above, early, rfl, hentries,
      List.forall_mem_cons.2 ⟨Walk.startsBeforeSweep_one _ _, hall⟩⟩, hsame⟩
  | all =>
    have hnames : early.map (·.1) ⊆ r.disposers.names := by
      rw [Disposers.names, hentries]
      exact List.map_subset _ (List.subset_append_left _ _)
    exact ⟨late, ⟨_ :: top :: above, early, rfl, hentries,
      List.forall_mem_cons.2 ⟨(Walk.startsBeforeSweep_all _).mono hnames, hall⟩⟩, hsame⟩
  | settled outcome =>
    exact ⟨late, ⟨_ :: above, early, rfl, hentries,
      List.forall_mem_cons.2 (List.forall_mem_cons.1 hall)⟩, hsame⟩
  | «over» ht =>
    have hswept : r.swept (.turned top) = [] := r.swept_of_tasks fun rest hrest => by
      rw [Walk.tasks_of_over ht] at hrest
      cases hrest
    rw [Registry.after, ht, hswept]
    exact ⟨late, ⟨above, early, rfl, hentries, (List.forall_mem_cons.1 hall).2⟩, hsame⟩
  | @moved _ walk' r' events _ ht =>
    obtain ⟨early', late', hentries', hlate, hall'⟩ :=
      (Walk.quiet_of_moved ht).startsBeforeSweep hentries hall
    rw [Registry.after, ht]
    refine ⟨late', ⟨walk' :: above, early', rfl, hentries', hall'⟩, ?_⟩
    exact (Registry.swept_moved ht hentries (List.forall_mem_cons.1 hall).1 hentries' hlate).trans
      hsame
  | @asked _ rest n callback claimed _ ht =>
    obtain ⟨early', late', hentries', hlate, hall'⟩ :=
      (Walk.quiet_of_ask ht (.ok ())).startsBeforeSweep hentries hall
    have hswept : r.swept (.turned top) = [] := r.swept_of_tasks fun rest hrest => by
      rw [Walk.tasks_of_ask ht] at hrest
      cases hrest
    rw [Registry.after, ht, hswept]
    exact ⟨late', ⟨rest :: above, early', rfl, hentries',
      List.forall_mem_cons.2 (List.forall_mem_cons.1 hall')⟩, hlate.subperm.trans hsame⟩

theorem SweepsOnly.letGo {k : Nat} (hm : m.SweepsOnly below late)
    (hk : ∀ j < k, below.length < (run client j m).walks.length) :
    (letGo client k m).Subperm (late ++ accepted client k m) := by
  induction k generalizing m late with
  | zero => exact List.nil_subperm
  | succ k ih =>
    cases h : m.step client with
    | none =>
      rw [Machine.letGo, tally_of_stop h]
      exact List.nil_subperm
    | some m' =>
      obtain ⟨late', hm', hlate⟩ := hm.step (hk 0 (Nat.succ_pos k)) h
      have hrest := ih hm' fun j hj => by
        rw [← run_succ_of_step h]
        exact hk (j + 1) (Nat.succ_lt_succ hj)
      rw [Machine.letGo, accepted, tally_succ h, tally_succ h, ← List.append_assoc]
      have hfirst := (List.subperm_append_left (m.registry.swept m.deed)).2 hrest
      rw [← List.append_assoc] at hfirst
      exact hfirst.trans ((List.subperm_append_right _).2 hlate)

/-- Over a stretch of a run that ends as soon as the teardowns `above` are over and no callback is
registered, the callbacks that they hold, that are registered, or that are accepted on the way are
those that are run or dropped. -/
theorem perm_of_cleared {above : List (Walk κ)} {k : Nat}
    (hn : m.registry.disposers.names.Nodup) (hw : m.walks = above ++ below)
    (hw' : (run client k m).walks = below)
    (he : (run client k m).registry.disposers.entries = []) :
    (accepted client k m ++ (above.flatMap Walk.held ++ m.registry.disposers.entries)).Perm
      (invoked client k m ++ letGo client k m) := by
  have hrun := holding_run client hn k
  rw [holding, holding, hw, hw', he, List.flatMap_append, List.append_nil] at hrun
  rw [← Multiset.coe_eq_coe] at hrun ⊢
  simp only [← Multiset.coe_add] at hrun ⊢
  refine add_right_cancel (b := (below.flatMap Walk.held : Multiset (Name × κ))) ?_
  calc _ = _ := by ac_rfl
    _ = _ := hrun
    _ = _ := by ac_rfl

end Machine

end Late

namespace Machine

variable [Language ρ κ] {client : Client σ ρ κ} {m : Machine σ ρ κ}

theorem sweepsOnly_of_destroyAll (client : Client σ ρ κ) (hd : m.deed = .asked .destroyAll) :
    ∃ m', m.step client = some m' ∧ m'.SweepsOnly m.walks [] := by
  obtain ⟨memory, caller, callers, h, hduties⟩ := step_tearDown client hd rfl
  refine ⟨_, h, [.all m.registry.disposers], m.registry.disposers.entries, ?_,
    (List.append_nil _).symm, List.forall_mem_singleton.2 (Walk.startsBeforeSweep_all _)⟩
  rw [walks_of_asked hd, ← hduties]
  rfl

theorem letGo_of_destroyAll {k : Nat} {a : Answer} (hd : m.deed = .asked .destroyAll)
    (ha : m.AnswersAfter client k a) :
    (letGo client (k + 1) m).Subperm (accepted client (k + 1) m) := by
  obtain ⟨m₁, h, hm₁⟩ := sweepsOnly_of_destroyAll client hd
  rw [letGo, accepted, tally_succ h, tally_succ h, hd]
  refine hm₁.letGo fun j hj => ?_
  obtain ⟨above, hne, hw⟩ := above_of_destroyAll hd ha hj
  rw [← run_succ_of_step h, hw, List.length_append]
  have hpos : 0 < above.length := List.length_pos_iff.2 hne
  omega

theorem entries_of_accepted {entry : Name × κ}
    (ha : m.registry.accepted? m.deed = some entry) :
    (run client 1 m).registry.disposers.entries = m.registry.disposers.entries ++ [entry] := by
  obtain ⟨op, hop⟩ : ∃ op, m.deed = .asked op := by
    have hoffers := Registry.offers_of_accepted ha
    cases hd : m.deed with
    | asked op => exact ⟨op, rfl⟩
    | _ =>
      rw [hd] at hoffers
      cases hoffers
  obtain ⟨m', h⟩ := step_of_asked client hop
  have hturned : ∀ walk, m.deed ≠ .turned walk := fun walk hw => by
    rw [hop] at hw
    cases hw
  rw [run_succ_of_step h, run_zero, registry_step h, m.registry.entries_after hturned, ha]
  rfl

theorem run_or_swept_of_accepted (hm : m.Reachable client) (hd : m.deed = .asked .destroyAll)
    {i k : Nat} {a : Answer} (ha : m.AnswersAfter client k a) (hi : i ≤ k) {entry : Name × κ}
    (haccepted : (run client i m).registry.accepted? (run client i m).deed = some entry) :
    ∃ j, i < j ∧ j ≤ k ∧
      ((run client j m).registry.invoked? (run client j m).deed = some entry ∨
        entry ∈ (run client j m).registry.swept (run client j m).deed) := by
  obtain ⟨hwalks, hentries⟩ := entries_of_destroyAll hd ha
  rw [← walks_of_asked hd] at hwalks
  have hmem : entry ∈ (run client (i + 1) m).registry.disposers.entries := by
    rw [run_add i 1, entries_of_accepted haccepted]
    exact List.mem_append_right _ (List.mem_singleton_self entry)
  obtain hi | rfl := Nat.lt_or_eq_of_le hi
  · obtain ⟨l, rfl⟩ := Nat.exists_eq_add_of_lt hi
    obtain ⟨above, -, hw⟩ := above_of_destroyAll hd ha hi
    have hrun (j : Nat) : run client j (run client (i + 1) m) = run client (i + 1 + j) m :=
      (run_add _ j m).symm
    have hend : i + l + 1 + 1 = i + 1 + (l + 1) := by omega
    rw [hend, ← hrun] at hwalks hentries
    have hsettled := perm_of_cleared (hm.run (i + 1)).names_nodup hw hwalks hentries
    have hfate : entry ∈ invoked client (l + 1) (run client (i + 1) m) ++
        letGo client (l + 1) (run client (i + 1) m) :=
      hsettled.subset (List.mem_append_right _ (List.mem_append_right _ hmem))
    obtain hfate | hfate := List.mem_append.1 hfate
    · obtain ⟨j, hj, hfate⟩ := mem_tally hfate
      rw [hrun] at hfate
      exact ⟨i + 1 + j, by omega, by omega, .inl (Option.mem_toList.1 hfate)⟩
    · obtain ⟨j, hj, hfate⟩ := mem_tally hfate
      rw [hrun] at hfate
      exact ⟨i + 1 + j, by omega, by omega, .inr hfate⟩
  · rw [hentries] at hmem
    cases hmem

theorem subperm_of_perm_append {α : Type} {kept taken run gone : List α}
    (h : (kept ++ taken).Perm (run ++ gone)) (hgone : gone.Subperm taken) : kept.Subperm run := by
  rw [← Multiset.coe_eq_coe, ← Multiset.coe_add, ← Multiset.coe_add] at h
  rw [← Multiset.coe_le] at hgone ⊢
  refine le_of_add_le_add_right (a := (gone : Multiset α)) ?_
  calc (kept + gone : Multiset α) ≤ kept + taken := add_le_add_right hgone _
    _ = run + gone := h

/-- A destroy callback that is accepted while a complete teardown is in progress has, when the
teardown returns, been run since, or it was registered still at a sweep, which dropped it. In all,
the callbacks that were registered at the beginning or accepted meanwhile are those that were run or
dropped, each as often as it came in. All that were registered at the beginning have been run, and
none is registered at the end. -/
theorem accepted_are_run_or_swept (hm : m.Reachable client) (hd : m.deed = .asked .destroyAll)
    {k : Nat} {a : Answer} (ha : m.AnswersAfter client k a) :
    let m' := fun j => run client j m
    (∀ i ≤ k, ∀ entry, (m' i).registry.accepted? (m' i).deed = some entry →
        ∃ j, i < j ∧ j ≤ k ∧
          ((m' j).registry.invoked? (m' j).deed = some entry ∨
            entry ∈ (m' j).registry.swept (m' j).deed)) ∧
      (m.registry.disposers.entries ++ accepted client (k + 1) m).Perm
        (invoked client (k + 1) m ++ letGo client (k + 1) m) ∧
      m.registry.disposers.entries.Subperm (invoked client (k + 1) m) ∧
      (m' (k + 1)).registry.disposers.entries = [] := by
  intro m'
  obtain ⟨hwalks, hentries⟩ := entries_of_destroyAll hd ha
  rw [← walks_of_asked hd] at hwalks
  have hnone : m.walks = [] ++ m.walks := rfl
  have hperm : (m.registry.disposers.entries ++ accepted client (k + 1) m).Perm
      (invoked client (k + 1) m ++ letGo client (k + 1) m) :=
    List.perm_append_comm.trans (perm_of_cleared hm.names_nodup hnone hwalks hentries)
  exact ⟨fun i hi entry haccepted => run_or_swept_of_accepted hm hd ha hi haccepted, hperm,
    subperm_of_perm_append hperm (letGo_of_destroyAll hd ha), hentries⟩

section Tardy

/-- The destroy callback labelled `true` registers two more, and tears down the name of the
second. -/
def tardy : Client Unit (Request Bool) Bool where
  factory _ := return .ok ⟨0, .unit⟩
  early _ := return ⟨0, .unit⟩
  disposer registers := do
    if registers then
      let _ ← Program.ask (.onDestroy "b" false)
      let _ ← Program.ask (.onDestroy "c" false)
      let _ ← Program.ask (.destroy "c")
    return .ok ()
  hear _ memory := memory

def tardyMachine : Machine Unit (Request Bool) Bool :=
  run tardy 1 (.ofMain ({} : Settings).registry () (do
    let _ ← .ask (.onDestroy "a" true)
    let _ ← .ask .destroyAll))

theorem accepted_are_run_or_swept_tardy :
    tardyMachine.deed = .asked .destroyAll ∧
      tardyMachine.AnswersAfter tardy 17 (.report ⟨["a"], []⟩) ∧
      (∃ j, 5 < j ∧ j ≤ 17 ∧
        ((run tardy j tardyMachine).registry.invoked? (run tardy j tardyMachine).deed =
            some ("c", false) ∨
          ("c", false) ∈
            (run tardy j tardyMachine).registry.swept (run tardy j tardyMachine).deed)) ∧
      invoked tardy 18 tardyMachine = [("a", true), ("c", false)] ∧
      letGo tardy 18 tardyMachine = [("b", false)] := by
  have hm : tardyMachine.Reachable tardy := ⟨{}, (), _, 1, rfl⟩
  have hd : tardyMachine.deed = .asked .destroyAll := rfl
  have ha : tardyMachine.AnswersAfter tardy 17 (.report ⟨["a"], []⟩) := ⟨rfl, by decide⟩
  obtain ⟨hfate, -, -, -⟩ := accepted_are_run_or_swept hm hd ha
  exact ⟨hd, ha, hfate 5 (by decide) ("c", false) rfl, by decide, by decide⟩

/-- A callback that a destroy callback registers while everything is torn down is neither run nor
registered when the teardown returns. -/
theorem swept_unrun :
    tardyMachine.Reachable tardy ∧ tardyMachine.deed = .asked .destroyAll ∧
      tardyMachine.AnswersAfter tardy 17 (.report ⟨["a"], []⟩) ∧
      (run tardy 4 tardyMachine).duties.length = tardyMachine.duties.length + 1 ∧
      (run tardy 4 tardyMachine).registry.accepted? (run tardy 4 tardyMachine).deed =
        some ("b", false) ∧
      ("b", false) ∉ invoked tardy 18 tardyMachine ∧
      (run tardy 18 tardyMachine).registry.disposers.has "b" = false :=
  ⟨⟨{}, (), _, 1, rfl⟩, rfl, ⟨rfl, by decide⟩, rfl, rfl, by decide, by decide⟩

end Tardy

end Machine

end ObjectRegistry
