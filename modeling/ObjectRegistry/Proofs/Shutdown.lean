import ObjectRegistry.Proofs.CreateOnce
import ObjectRegistry.Proofs.Erasure
import ObjectRegistry.Proofs.Sweeping

namespace ObjectRegistry

variable {σ ρ κ : Type}

theorem Store.closed_refiles {s s' : Store κ} {d : Deed κ} (h : Refiles s d s')
    (hs : s.closed = true) : s'.closed = true := by
  cases h with
  | closed => rfl
  | kept | installed | built | deferred | taken | showed | dropped | discarded | cleared => exact hs

theorem Deed.offered?_eq_some {d : Deed κ} {n : Name} {o : Handle} (h : d.offered? n = some o) :
    d = .asked (.store (.install n o)) := by
  unfold offered? at h
  split at h
  · obtain ⟨⟨rfl, -⟩, ho⟩ := Option.ite_none_right_eq_some.1 h
    cases ho
    rfl
  · cases h

namespace Registry

variable {r : Registry κ}

theorem edges_of_swept (h : r.sweep = r) : r.edges = {} :=
  congrArg Registry.edges h.symm

theorem disposers_of_swept (h : r.sweep = r) : r.disposers = {} :=
  congrArg Registry.disposers h.symm

theorem store_of_swept (h : r.sweep = r) : r.store = { closed := r.store.closed } :=
  congrArg Registry.store h.symm

theorem obtain_of_closed (r : Registry κ) {n : Name} (hn : n ≠ "") (factory : κ)
    (hc : r.store.closed = true) :
    ∃ events, r.obtain n factory =
      .reply (.made ((r.store.finished[n]?).elim (.error (.shutDown n)) .ok)) r events := by
  cases hf : r.store.finished[n]? with
  | some o => exact ⟨_, obtain_finished hn hf⟩
  | none => exact ⟨_, obtain_closed hn hf hc⟩

theorem close_of_closed (h : r.store.closed = true) : { r with store := r.store.close } = r := by
  have hstore : r.store.close = r.store := by rw [Store.close, ← h]
  rw [hstore]

end Registry

namespace Machine

section Closed

variable [Language ρ κ] {client : Client σ ρ κ} {m m' : Machine σ ρ κ} {n : Name}

theorem not_builds_of_closed (h : m.registry.store.closed = true) (n : Name) : ¬m.Builds n := by
  rintro ⟨ownsWindow, factory, hl⟩
  rw [(Registry.launch?_construct hl).2.2.2.1] at h
  cases h

theorem closed_run {k : Nat} (h : m.registry.store.closed = true) :
    (run client k m).registry.store.closed = true := by
  refine run_keeps (P := fun m => m.registry.store.closed = true) h fun j _ m' hm hs => ?_
  rw [registry_step hs]
  exact Store.closed_refiles (Registry.refiles _ _) hm

theorem closed_of_destroyAll (hd : m.deed = .asked .destroyAll) :
    (run client 1 m).registry.store.closed = true := by
  obtain ⟨m', h⟩ := step_of_asked client hd
  rw [run_succ_of_step h, run_zero, registry_step h, hd]
  rfl

theorem construct_mem_of_step {ownsWindow : Bool} (hb : ¬m.Builds n) (h : m.step client = some m')
    (hmem : .construct n ownsWindow ∈ m'.duties) : .construct n ownsWindow ∈ m.duties := by
  refine (duties_inv h hmem).resolve_right ?_
  rintro ⟨factory, hl⟩
  exact hb ⟨ownsWindow, factory, hl⟩

theorem construct_mem_of_run {k : Nat} {ownsWindow : Bool}
    (hb : ∀ j < k, ¬(run client j m).Builds n)
    (hmem : .construct n ownsWindow ∈ (run client k m).duties) :
    .construct n ownsWindow ∈ m.duties := by
  let duty : Duty κ := .construct n ownsWindow
  refine run_keeps (P := fun x => duty ∈ x.duties → duty ∈ m.duties) id ?_ hmem
  exact fun j hj m' ih hs hmem => ih (construct_mem_of_step (hb j hj) hs hmem)

theorem finished_anew {o : Handle} (h : m.step client = some m')
    (hf : m.registry.store.finished[n]? = none) (hf' : m'.registry.store.finished[n]? = some o) :
    m.deed = .asked (.store (.install n o)) ∨ ∃ ownsWindow, m.deed = .built n ownsWindow (.ok o) ∧
      .construct n ownsWindow ∈ m.duties := by
  rw [registry_step h, Registry.finished_after, hf, Option.none_or] at hf'
  split at hf'
  · cases hf'
  obtain hb | ⟨-, ho⟩ := Option.or_eq_some_iff.1 hf'
  · obtain ⟨ownsWindow, hd⟩ := Registry.built?_eq_some n hb
    have hends : m.deed.ends? = some (.construct n ownsWindow) := by rw [hd, Deed.ends?]
    exact .inr ⟨ownsWindow, hd, duties_of_ends h hends ▸ List.mem_cons_self⟩
  · exact .inl (Deed.offered?_eq_some ho)

theorem destroyAll_of_swept (hd : m.deed = .asked .destroyAll)
    (hs : m.registry.sweep = m.registry) (hc : m.registry.store.closed = true) :
    m.Returns client (.report {}) m.registry := by
  obtain ⟨memory, caller, callers, hstep, hduties⟩ := step_tearDown client hd rfl
  rw [Registry.close_of_closed hc, Registry.disposers_of_swept hs] at hstep
  let told := remember client [.teardownEnded 0 0] memory
  have hsweep : step client ⟨m.registry, memory, .tearDown (.all {}), caller :: callers⟩ =
      some ⟨m.registry, told, .tearDown {}, caller :: callers⟩ := by
    have h : step client ⟨m.registry, memory, .tearDown (.all {}), caller :: callers⟩ =
        some ⟨m.registry.sweep, told, .tearDown {}, caller :: callers⟩ := rfl
    rwa [hs] at h
  have hm : m.Mute := by
    rw [Mute, hd]
    rfl
  let m' : Machine σ ρ κ :=
    ⟨m.registry, told, .code caller.duty (caller.resume (.report {})), callers⟩
  have hlast : step client ⟨m.registry, told, .tearDown {}, caller :: callers⟩ = some m' := rfl
  have hdepth : m'.duties.length = m.duties.length := by
    rw [← hduties]
    rfl
  have hmute := Unanswered.step hm hstep (.step rfl hsweep (.stay _))
  obtain ⟨k, ha, hr, -⟩ := hmute.answersAfter hlast hdepth rfl
  exact ⟨k, ha, hr⟩

end Closed

variable {client : Client σ (Request κ) κ}

/-- From the start of a complete teardown on, the registry is closed. No factory is started, and a
request for an object is answered at once by the finished object or by the refusal. A name that
becomes finished is registered from outside or was under construction before. When the teardown
ends, whatever was done meanwhile, nothing is left but the aliases and the marks, and one more
complete teardown reports nothing and changes nothing. -/
theorem closed_for_good {settings : Settings} {memory : σ} {main : Program σ (Request κ) Unit}
    {i : Nat}
    (hi : (run client i (.ofMain settings.registry memory main)).deed = .asked .destroyAll) :
    let m := fun k => run client k (.ofMain settings.registry memory main)
    (∀ j > i, (m j).registry.store.closed = true ∧ (∀ n, ¬(m j).Builds n) ∧
        ∀ name factory, name ≠ "" →
          (m j).deed = .asked ((Request.obtain name factory).resolve (m j).registry.links) →
          let n := (m j).registry.links.canonical name
          (m j).AnswersAfter client 0
            (.made (((m j).registry.store.finished[n]?).elim (.error (.shutDown n)) .ok))) ∧
      (∀ j ≥ i, ∀ n o, (m j).registry.store.finished[n]? = none →
        (m (j + 1)).registry.store.finished[n]? = some o →
        (m j).deed = .asked (.store (.install n o)) ∨
          ∃ ownsWindow, (m j).deed = .built n ownsWindow (.ok o) ∧
            .construct n ownsWindow ∈ (m i).duties) ∧
      ∀ k a, (m i).AnswersAfter client k a →
        let r := (m (i + k + 1)).registry
        r.store = { closed := true } ∧ r.disposers = {} ∧ r.edges = {} ∧
          ∀ j, (m j).registry = r → (m j).deed = .asked .destroyAll →
            (m j).Returns client (.report {}) r := by
  intro m
  have hrun (k : Nat) : m (i + k) = run client k (m i) := run_add i k _
  have hclosed {j : Nat} (hj : j > i) : (m j).registry.store.closed = true := by
    obtain ⟨d, rfl⟩ := Nat.exists_eq_add_of_lt hj
    rw [Nat.add_assoc, Nat.add_comm d, ← Nat.add_assoc]
    have hsplit : m (i + 1 + d) = run client d (run client 1 (m i)) := by
      rw [← hrun]
      exact run_add (i + 1) d _
    rw [hsplit]
    exact closed_run (closed_of_destroyAll hi)
  have hstill {j : Nat} (hj : j ≥ i) (n : Name) : ¬(m j).Builds n := by
    obtain rfl | hj := Nat.eq_or_lt_of_le hj
    · rintro ⟨ownsWindow, factory, hl⟩
      rw [hi] at hl
      cases hl
    · exact not_builds_of_closed (hclosed hj) n
  refine ⟨fun j hj => ⟨hclosed hj, hstill (Nat.le_of_lt hj), fun name factory hname hd => ?_⟩,
    fun j hj n o hf hf' => ?_, fun k a ha => ?_⟩
  · have hbuilt : (m j).registry.links.Built := Reachable.built ⟨settings, memory, main, j, rfl⟩
    obtain ⟨events, ho⟩ :=
      (m j).registry.obtain_of_closed (hbuilt.canonical_ne_empty hname) factory (hclosed hj)
    exact answersAfter_of_start hd ho
  · cases hs : (m j).step client with
    | none =>
      have hstop : m (j + 1) = m j := (run_add j 1 _).trans (run_of_stop hs 1)
      rw [hstop, hf] at hf'
      cases hf'
    | some m' =>
      have hnext : m (j + 1) = m' := (run_add j 1 _).trans (run_succ_of_step hs 0)
      rw [hnext] at hf'
      obtain hd | ⟨ownsWindow, hd, hmem⟩ := finished_anew hs hf hf'
      · exact .inl hd
      obtain ⟨d, rfl⟩ := Nat.exists_eq_add_of_le hj
      rw [hrun] at hmem
      refine .inr ⟨ownsWindow, hd, construct_mem_of_run (fun l _ => ?_) hmem⟩
      rw [← hrun]
      exact hstill (Nat.le_add_right i l) n
  · have hswept : (m (i + k + 1)).registry.sweep = (m (i + k + 1)).registry := by
      rw [Nat.add_assoc, hrun]
      exact (swept_of_destroyAll hi ha).2
    have hend : (m (i + k + 1)).registry.store.closed = true := hclosed (by omega)
    refine ⟨?_, Registry.disposers_of_swept hswept, Registry.edges_of_swept hswept,
      fun j hj hd => ?_⟩
    · rw [Registry.store_of_swept hswept, hend]
    · rw [← hj]
      rw [← hj] at hswept hend
      exact destroyAll_of_swept hd hswept hend

/-- The factory has everything torn down, twice. The destroy callback asks for an object and leaves
another one behind, with a callback and an edge of its own. -/
def parting : Client Unit (Request Unit) Unit where
  factory _ := do
    let _ ← .ask .destroyAll
    let _ ← .ask .destroyAll
    return .ok ⟨0, .unit⟩
  early _ := return ⟨0, .unit⟩
  disposer _ := do
    let _ ← .ask (.obtain "late" ())
    let _ ← .ask (.install "b" ⟨1, .unit⟩)
    let _ ← .ask (.onDestroy "b" ())
    let _ ← .ask (.addDependency "b" "late")
    return .ok ()
  hear _ memory := memory

def partingMain : Program Unit (Request Unit) Unit := do
  let _ ← .ask (.onDestroy "a" ())
  let _ ← .ask (.obtain "outer" ())

theorem closed_for_good_parting :
    let m := fun k => run parting k (.ofMain ({} : Settings).registry () partingMain)
    (m 2).deed = .asked .destroyAll ∧ (m 2).AnswersAfter parting 12 (.report ⟨["a"], []⟩) ∧
      (m 6).AnswersAfter parting 0 (.made (.error (.shutDown "late"))) ∧
      (m 18).registry.store.finished["outer"]? = none ∧
      (m 19).registry.store.finished["outer"]? = some ⟨0, .unit⟩ ∧
      .construct "outer" true ∈ (m 2).duties ∧
      (m 15).registry.store = { closed := true } ∧ (m 15).deed = .asked .destroyAll ∧
      (m 15).Returns parting (.report {}) (m 15).registry := by
  intro m
  have hi : (m 2).deed = .asked .destroyAll := rfl
  have ha : (m 2).AnswersAfter parting 12 (.report ⟨["a"], []⟩) := ⟨rfl, by decide⟩
  have hf : (m 18).registry.store.finished["outer"]? = none := by decide
  have hf' : (m 19).registry.store.finished["outer"]? = some ⟨0, .unit⟩ := by decide
  have hd : (m 15).deed = .asked .destroyAll := rfl
  obtain ⟨hclosed, hanew, hend⟩ := closed_for_good hi
  obtain ⟨-, -, hlate⟩ := hclosed 6 (by decide)
  obtain ⟨hstore, -, -, hagain⟩ := hend 12 _ ha
  have hmade : .construct "outer" true ∈ (m 2).duties := by
    obtain hd | ⟨ownsWindow, hd, hmem⟩ := hanew 18 (by decide) "outer" _ hf hf'
    · cases hd
    · cases hd
      exact hmem
  exact ⟨hi, ha, hlate "late" () (by decide) rfl, hf, hf', hmade, hstore, hd, hagain 15 rfl hd⟩

end Machine

end ObjectRegistry
