import ObjectRegistry.Proofs.Calls

namespace ObjectRegistry

variable {σ ρ κ : Type}

def Program.outcome? : Program σ ρ (Except Fault Unit) → Option (Except Fault Unit)
  | .done outcome => some outcome
  | .panic p => some (.error (.raised ("destroy callback panicked: " ++ p.text)))
  | .access .. | .call .. => none

structure Site (σ κ : Type) where
  registry : Registry κ
  memory : σ
  visited : List Name
  report : Report

namespace Site

variable [Language ρ κ]

def enter (client : Client σ ρ κ) (s : Site σ κ) (n : Name) : Site σ κ :=
  let dependents := s.registry.edges.dependentsOf n
  { s with
    registry :=
      { s.registry with
        store := s.registry.store.drop n
        disposers := s.registry.disposers.erase n
        edges := s.registry.edges.takeDependents n }
    memory :=
      Machine.remember client (if dependents = [] then [] else [.dependentsFirst n dependents])
        s.memory
    visited := n :: s.visited }

def settle (s : Site σ κ) (n : Name) (claimed : Bool) (outcome : Except Fault Unit) : Site σ κ :=
  { s with
    report :=
      { destroyed := if claimed then s.report.destroyed ++ [n] else s.report.destroyed
        failures :=
          match outcome with
          | .ok () => s.report.failures
          | .error fault => s.report.failures ++ [(n, fault)] } }

def unpack (s : Site σ κ) (n : Name) : Site σ κ :=
  { s with registry := { s.registry with edges := s.registry.edges.takeContained n } }

def forget (s : Site σ κ) (n : Name) : Site σ κ :=
  { s with registry := { s.registry with edges := s.registry.edges.forget n } }

def machine (s : Site σ κ) (tasks : List (Task κ)) (callers : List (Caller σ ρ κ)) :
    Machine σ ρ κ :=
  ⟨s.registry, s.memory, .tearDown ⟨tasks, s.visited, s.report⟩, callers⟩

end Site

section Recursion

variable [Language ρ κ]

/-- A destroy callback that is called with this registry and this memory ends, and comes to
`outcome`. Nobody waits for it here: who does has no part in what it does. -/
def Machine.Performs (client : Client σ ρ κ) (callback : κ) (r : Registry κ) (memory : σ)
    (outcome : Except Fault Unit) (r' : Registry κ) (memory' : σ) : Prop :=
  ∃ (k : Nat) (program : Program σ ρ (Except Fault Unit)),
    run client k ⟨r, memory, .code (.dispose "" false {}) (client.disposer callback), []⟩ =
        ⟨r', memory', .code (.dispose "" false {}) program, []⟩ ∧
      program.outcome? = some outcome

def disposalEvents (n : Name) : Except Fault Unit → List Event
  | .ok () => []
  | .error fault => [.callbackFailed n fault]

/-- Runs the destroy callback of `n`, if it has one, and reports `n` if it was claimed. -/
inductive Disposes (client : Client σ ρ κ) (n : Name) (claimed : Bool) :
    Option κ → Site σ κ → Site σ κ → Prop where
  | none (s : Site σ κ) : Disposes client n claimed none s (s.settle n claimed (.ok ()))
  | some {s : Site σ κ} {callback : κ} {outcome : Except Fault Unit} {r : Registry κ} {memory : σ}
    (h : Machine.Performs client callback s.registry s.memory outcome r memory) :
    Disposes client n claimed (some callback) s
      ({ s with
        registry := r
        memory := Machine.remember client (disposalEvents n outcome) memory }.settle n claimed
          outcome)

/-- Tears names down in turn. A name is passed over if it was visited before. Else its dependents
come down first, then its own callback runs, then what it contains comes down, and last it is
forgotten. -/
inductive Razes (client : Client σ ρ κ) : List Name → Site σ κ → Site σ κ → Prop where
  | nil (s : Site σ κ) : Razes client [] s s
  | again {n : Name} {ns : List Name} {s s' : Site σ κ} (hn : n ∈ s.visited)
    (rest : Razes client ns s s') : Razes client (n :: ns) s s'
  | name {n : Name} {ns : List Name} {s s₁ s₂ s₃ s' : Site σ κ} (hn : n ∉ s.visited)
    (dependents : Razes client (s.registry.edges.dependentsOf n) (s.enter client n) s₁)
    (own : Disposes client n
      (s.registry.store.holds n || (s.registry.disposers.find? n).isSome)
      (s.registry.disposers.find? n) s₁ s₂)
    (contained : Razes client (s₂.registry.edges.containedIn n) (s₂.unpack n) s₃)
    (rest : Razes client ns (s₃.forget n) s') : Razes client (n :: ns) s s'

end Recursion

namespace Machine

section Sited

variable {n : Name} {claimed : Bool} {rest : Walk κ} {callers : List (Caller σ ρ κ)}

/-- The same point of a destroy callback, once with nobody waiting for it and once in a teardown. -/
inductive Sited (n : Name) (claimed : Bool) (rest : Walk κ) (callers : List (Caller σ ρ κ)) :
    Machine σ ρ κ → Machine σ ρ κ → Prop where
  | own (r : Registry κ) (memory : σ) (program : Program σ ρ (Except Fault Unit)) :
    Sited n claimed rest callers ⟨r, memory, .code (.dispose "" false {}) program, []⟩
      ⟨r, memory, .code (.dispose n claimed rest) program, callers⟩
  | above (r : Registry κ) (memory : σ) (activity : Activity σ ρ κ)
    (upper : List (Caller σ ρ κ)) (resume : Answer → Program σ ρ (Except Fault Unit)) :
    Sited n claimed rest callers
      ⟨r, memory, activity, upper ++ [⟨.dispose "" false {}, resume⟩]⟩
      ⟨r, memory, activity, upper ++ ⟨.dispose n claimed rest, resume⟩ :: callers⟩

def Spent (m : Machine σ ρ κ) : Prop :=
  ∃ (r : Registry κ) (memory : σ) (program : Program σ ρ (Except Fault Unit)),
    m = ⟨r, memory, .code (.dispose "" false {}) program, []⟩ ∧ program.outcome? ≠ none

theorem sited_reseats (client : Client σ ρ κ)
    (resume : Answer → Program σ ρ (Except Fault Unit)) :
    Reseats client (Sited n claimed rest callers) [⟨.dispose "" false {}, resume⟩]
      (⟨.dispose n claimed rest, resume⟩ :: callers) where
  above r memory activity upper := .above r memory activity upper resume
  answered _ _ _ r' _ a := .some (.own r' _ (resume a))

def Ahead (tasks : List (Task κ)) (callers : List (Caller σ ρ κ)) (m : Machine σ ρ κ) : Prop :=
  match m.activity with
  | .code .. => True
  | .tearDown walk => callers.length < m.callers.length ∨ tasks.length < walk.tasks.length

variable {x y : Machine σ ρ κ} {tasks tasks' : List (Task κ)}

theorem Ahead.mono (ht : tasks.length ≤ tasks'.length) (h : x.Ahead tasks' callers) :
    x.Ahead tasks callers := by
  obtain ⟨r, memory, activity, _⟩ := x
  cases activity with
  | code => trivial
  | tearDown walk => exact h.imp_right (Nat.lt_of_le_of_lt ht)

theorem Sited.ahead (h : Sited n claimed rest callers x y) : y.Ahead tasks callers := by
  cases h with
  | own => trivial
  | above r memory activity upper resume =>
    cases activity with
    | code => trivial
    | tearDown walk =>
      left
      rw [List.length_append, List.length_cons]
      omega

theorem Sited.own_of_spent (h : Sited n claimed rest callers x y) (hx : x.Spent) :
    ∃ (r : Registry κ) (memory : σ) (program : Program σ ρ (Except Fault Unit)) (outcome : _),
      program.outcome? = some outcome ∧
        x = ⟨r, memory, .code (.dispose "" false {}) program, []⟩ ∧
        y = ⟨r, memory, .code (.dispose n claimed rest) program, callers⟩ := by
  obtain ⟨r, memory, program, rfl, hp⟩ := hx
  obtain ⟨outcome, ho⟩ := Option.ne_none_iff_exists'.1 hp
  generalize hm : (⟨r, memory, .code (.dispose "" false {}) program, []⟩ : Machine σ ρ κ) = x at h
  cases h with
  | own r memory program' =>
    cases hm
    exact ⟨_, _, _, outcome, ho, rfl, rfl⟩
  | above r memory activity upper resume =>
    have hc : [] = upper ++ [_] := congrArg Machine.callers hm
    exact absurd hc.symm (List.concat_ne_nil _ _)

variable [Language ρ κ] {client : Client σ ρ κ} {k : Nat} {r r' : Registry κ} {memory memory' : σ}
  {program : Program σ ρ (Except Fault Unit)} {outcome : Except Fault Unit}

theorem Sited.step_rel (client : Client σ ρ κ) (h : Sited n claimed rest callers x y)
    (hx : ¬x.Spent) :
    Option.Rel (Sited n claimed rest callers) (x.step client) (y.step client) := by
  cases h with
  | own r memory program =>
    cases program with
    | done result => exact absurd ⟨r, memory, _, rfl, Option.some_ne_none _⟩ hx
    | panic p => exact absurd ⟨r, memory, _, rfl, Option.some_ne_none _⟩ hx
    | access change next => exact .some (.own _ _ _)
    | call request next => exact (sited_reseats client next).begin r memory _ [] _
  | above r memory activity upper resume =>
    exact (sited_reseats client resume).step r memory activity upper

theorem Sited.step (client : Client σ ρ κ) (h : Sited n claimed rest callers x y) (hx : ¬x.Spent) :
    x.step client = none ∧ y.step client = none ∨
      ∃ x' y', x.step client = some x' ∧ y.step client = some y' ∧
        Sited n claimed rest callers x' y' := by
  have hr := h.step_rel client hx
  generalize x.step client = ox at hr
  generalize y.step client = oy at hr
  cases hr with
  | none => exact .inl ⟨rfl, rfl⟩
  | some h => exact .inr ⟨_, _, rfl, rfl, h⟩

theorem Sited.ends (h : Sited n claimed rest callers x y)
    (hk : ¬(run client k y).Ahead tasks callers) :
    ∃ j < k, ∃ r memory program outcome, program.outcome? = some outcome ∧
      run client j x = ⟨r, memory, .code (.dispose "" false {}) program, []⟩ ∧
      run client j y = ⟨r, memory, .code (.dispose n claimed rest) program, callers⟩ := by
  induction k generalizing x y with
  | zero => exact absurd h.ahead hk
  | succ k ih =>
    by_cases hx : x.Spent
    · obtain ⟨r, memory, program, outcome, ho, hx, hy⟩ := h.own_of_spent hx
      exact ⟨0, Nat.succ_pos k, r, memory, program, outcome, ho, hx, hy⟩
    · obtain ⟨-, hy⟩ | ⟨x', y', hxs, hys, hsited⟩ := h.step client hx
      · rw [run_of_stop hy] at hk
        exact absurd h.ahead hk
      · rw [run_succ_of_step hys] at hk
        obtain ⟨j, hj, hend⟩ := ih hsited hk
        refine ⟨j + 1, Nat.succ_lt_succ hj, ?_⟩
        rwa [run_succ_of_step hxs, run_succ_of_step hys]

theorem step_spent (client : Client σ ρ κ) (r : Registry κ) (memory : σ) (n : Name)
    (claimed : Bool) (rest : Walk κ) (callers : List (Caller σ ρ κ))
    (ho : program.outcome? = some outcome) :
    step client ⟨r, memory, .code (.dispose n claimed rest) program, callers⟩ =
      some ⟨r, remember client (disposalEvents n outcome) memory,
        .tearDown (rest.settle n claimed outcome), callers⟩ := by
  cases program with
  | access change next => cases ho
  | call request next => cases ho
  | done result =>
    cases ho
    cases outcome <;> rfl
  | panic p =>
    cases ho
    rfl

theorem not_code_after_spent {duty : Duty κ} {last : Program σ ρ duty.Result}
    (ho : program.outcome? = some outcome) :
    run client (k + 1) ⟨r, memory, .code (.dispose "" false {}) program, []⟩ ≠
      ⟨r', memory', .code duty last, []⟩ := by
  intro hk
  have hstep := step_spent client r memory "" false {} [] ho
  rw [run_succ_of_step hstep, run_of_stop rfl] at hk
  cases hk

theorem Sited.trail (h : Sited n claimed rest callers x y)
    (hx : run client k x = ⟨r, memory, .code (.dispose "" false {}) program, []⟩)
    (ho : program.outcome? = some outcome) :
    ∃ l, Trail client (Ahead tasks callers) y l
      ⟨r, memory, .code (.dispose n claimed rest) program, callers⟩ := by
  induction k generalizing x y with
  | zero =>
    obtain ⟨r', memory', program', outcome', -, hx', rfl⟩ :=
      h.own_of_spent ⟨r, memory, program, hx, by rw [ho]; exact Option.some_ne_none outcome⟩
    cases hx.symm.trans hx'
    exact ⟨[], .stay _⟩
  | succ k ih =>
    by_cases hs : x.Spent
    · obtain ⟨r', memory', program', outcome', ho', rfl, -⟩ := h.own_of_spent hs
      exact absurd hx (not_code_after_spent ho')
    · obtain ⟨hxs, -⟩ | ⟨x', y', hxs, hys, hsited⟩ := h.step client hs
      · rw [run_of_stop hxs] at hx
        exact absurd ⟨r, memory, program, hx, by rw [ho]; exact Option.some_ne_none outcome⟩ hs
      · rw [run_succ_of_step hxs] at hx
        obtain ⟨l, ht⟩ := ih hsited hx
        exact ⟨_, .step h.ahead hys ht⟩

end Sited

section Walk

variable {client : Client σ ρ κ} {s s' : Site σ κ} {n : Name} {names : List Name} {claimed : Bool}
  {tasks rest : List (Task κ)} {callers : List (Caller σ ρ κ)} {callback : Option κ} {k : Nat}

theorem ahead_machine {task : Task κ} (h : rest.length ≤ tasks.length) :
    (s.machine (task :: tasks) callers : Machine σ ρ κ).Ahead rest callers :=
  .inr (Nat.lt_succ_of_le h)

theorem not_ahead_machine : ¬(s.machine rest callers : Machine σ ρ κ).Ahead rest callers := by
  rintro (h | h)
  · exact Nat.lt_irrefl _ h
  · exact Nat.lt_irrefl _ h

variable [Language ρ κ]

theorem step_again (client : Client σ ρ κ) (tasks : List (Task κ)) (callers : List (Caller σ ρ κ))
    (hn : n ∈ s.visited) :
    (s.machine (.enter n :: tasks) callers).step client = some (s.machine tasks callers) := by
  simp only [Site.machine, step, Walk.turn, hn, ↓reduceIte, remember, List.foldl_nil]

theorem step_enter (client : Client σ ρ κ) (tasks : List (Task κ)) (callers : List (Caller σ ρ κ))
    (hn : n ∉ s.visited) :
    (s.machine (.enter n :: tasks) callers).step client =
      some ((s.enter client n).machine
        ((s.registry.edges.dependentsOf n).map .enter ++
          .dispose n (s.registry.disposers.find? n)
              (s.registry.store.holds n || (s.registry.disposers.find? n).isSome) ::
            .contained n :: .forget n :: tasks) callers) := by
  simp only [Site.machine, step, Walk.turn, hn, ↓reduceIte]
  rfl

theorem step_dispose {callback : κ} :
    (s.machine (.dispose n (some callback) claimed :: tasks) callers).step client =
      some ⟨s.registry, s.memory,
        .code (.dispose n claimed ⟨tasks, s.visited, s.report⟩) (client.disposer callback),
        callers⟩ :=
  rfl

theorem step_contained :
    (s.machine (.contained n :: tasks) callers).step client =
      some ((s.unpack n).machine ((s.registry.edges.containedIn n).map .enter ++ tasks) callers) :=
  rfl

theorem step_forget :
    (s.machine (.forget n :: tasks) callers).step client =
      some ((s.forget n).machine tasks callers) :=
  rfl

theorem Disposes.trail (callers : List (Caller σ ρ κ))
    (h : Disposes client n claimed callback s s') (ht : rest.length ≤ tasks.length) :
    ∃ l, Trail client (Ahead rest callers)
      (s.machine (.dispose n callback claimed :: tasks) callers) l (s'.machine tasks callers) := by
  cases h with
  | none => exact ⟨_, .step (ahead_machine ht) rfl (.stay _)⟩
  | @some _ callback _ _ _ h =>
    obtain ⟨k, program, hk, ho⟩ := h
    have hs : Sited n claimed ⟨tasks, s.visited, s.report⟩ callers _ _ :=
      .own s.registry s.memory (client.disposer callback)
    obtain ⟨l, hl⟩ := hs.trail hk ho
    have hlast := hl.trans (.step trivial (step_spent client _ _ n claimed _ callers ho) (.stay _))
    exact ⟨_, .step (ahead_machine ht) step_dispose hlast⟩

/-- By induction on the recursion: the walk takes up the names in turn, and comes back to the tasks
below them. -/
theorem Razes.trail (h : Razes client names s s') (rest : List (Task κ))
    (callers : List (Caller σ ρ κ)) :
    ∃ l, Trail client (Ahead rest callers) (s.machine (names.map .enter ++ rest) callers) l
      (s'.machine rest callers) := by
  induction h generalizing rest with
  | nil s => exact ⟨[], .stay _⟩
  | @again n ns s s' hn _ ih =>
    obtain ⟨l, ht⟩ := ih rest
    have hle : rest.length ≤ (ns.map Task.enter ++ rest).length :=
      (List.suffix_append _ rest).length_le
    exact ⟨_, .step (ahead_machine hle) (step_again client _ callers hn) ht⟩
  | @name n ns s s₁ s₂ s₃ s' hn _ own _ _ ihd ihc ihr =>
    have hle : rest.length ≤ (ns.map Task.enter ++ rest).length :=
      (List.suffix_append _ rest).length_le
    have hle₁ : rest.length ≤ (.forget n :: (ns.map Task.enter ++ rest)).length :=
      Nat.le_succ_of_le hle
    have hle₂ : rest.length ≤ (.contained n :: .forget n :: (ns.map Task.enter ++ rest)).length :=
      Nat.le_succ_of_le hle₁
    obtain ⟨ld, htd⟩ := ihd (.dispose n (s.registry.disposers.find? n)
      (s.registry.store.holds n || (s.registry.disposers.find? n).isSome) ::
        .contained n :: .forget n :: (ns.map .enter ++ rest))
    obtain ⟨lo, hto⟩ := Disposes.trail callers own hle₂
    obtain ⟨lc, htc⟩ := ihc (.forget n :: (ns.map .enter ++ rest))
    obtain ⟨lr, htr⟩ := ihr rest
    have hd := htd.mono fun m => Ahead.mono (Nat.le_succ_of_le hle₂)
    have hc := htc.mono fun m => Ahead.mono hle₁
    have hforget := hc.trans (.step (ahead_machine hle) step_forget htr)
    have hcontained := hto.trans (.step (ahead_machine hle₁) step_contained hforget)
    exact ⟨_, .step (ahead_machine hle) (step_enter client _ callers hn) (hd.trans hcontained)⟩

theorem fall_step {x x' : Machine σ ρ κ} (hs : x.step client = some x')
    (hx : x.Ahead rest callers) (hk : ¬(run client k x).Ahead rest callers) :
    ∃ i, k = i + 1 ∧ ¬(run client i x').Ahead rest callers := by
  cases k with
  | zero => exact absurd hx hk
  | succ i => exact ⟨i, rfl, by rwa [run_succ_of_step hs] at hk⟩

theorem fall_run {x y : Machine σ ρ κ} {j : Nat} (hj : j ≤ k) (hy : run client j x = y)
    (hk : ¬(run client k x).Ahead rest callers) :
    ¬(run client (k - j) y).Ahead rest callers := by
  rwa [← hy, ← run_add, Nat.add_sub_cancel' hj]

theorem disposes_of_fall
    (hk : ¬(run client k (s.machine (.dispose n callback claimed :: tasks) callers)).Ahead tasks
      callers) :
    ∃ j ≤ k, ∃ s', Disposes client n claimed callback s s' ∧
      run client j (s.machine (.dispose n callback claimed :: tasks) callers) =
        s'.machine tasks callers := by
  cases callback with
  | none =>
    obtain ⟨i, rfl, -⟩ := fall_step rfl (ahead_machine (Nat.le_refl _)) hk
    exact ⟨1, Nat.succ_pos i, _, .none s, rfl⟩
  | some callback =>
    obtain ⟨i, rfl, hi⟩ := fall_step step_dispose (ahead_machine (Nat.le_refl _)) hk
    have hs : Sited n claimed ⟨tasks, s.visited, s.report⟩ callers _ _ :=
      .own s.registry s.memory (client.disposer callback)
    obtain ⟨j, hj, r, memory, program, outcome, ho, hown, hsited⟩ := hs.ends hi
    refine ⟨j + 2, Nat.succ_le_succ hj, _, .some ⟨j, program, hown, ho⟩, ?_⟩
    rw [run_succ_of_step step_dispose, run_add, hsited]
    exact run_succ_of_step (step_spent client r memory n claimed _ callers ho) 0

/-- By induction on the length of the run: a walk that gets past the names has torn them down. -/
theorem razes_of_fall (names : List Name)
    (hk : ¬(run client k (s.machine (names.map .enter ++ rest) callers)).Ahead rest callers) :
    ∃ j ≤ k, ∃ s', Razes client names s s' ∧
      run client j (s.machine (names.map .enter ++ rest) callers) = s'.machine rest callers := by
  induction k using Nat.strongRecOn generalizing s names rest with
  | ind k ih =>
  cases names with
  | nil => exact ⟨0, Nat.zero_le k, s, .nil s, rfl⟩
  | cons n ns =>
    have hle : rest.length ≤ (ns.map Task.enter ++ rest).length :=
      (List.suffix_append _ rest).length_le
    by_cases hn : n ∈ s.visited
    · have hstep := step_again client (ns.map .enter ++ rest) callers hn
      obtain ⟨i, rfl, hi⟩ := fall_step hstep (ahead_machine hle) hk
      obtain ⟨j, hj, s', hrest, hrun⟩ := ih i (Nat.lt_succ_self i) ns hi
      exact ⟨j + 1, Nat.succ_le_succ hj, s', .again hn hrest, (run_succ_of_step hstep j).trans hrun⟩
    · have hle₁ : rest.length ≤ (.forget n :: (ns.map Task.enter ++ rest)).length :=
        Nat.le_succ_of_le hle
      have hle₂ : rest.length ≤ (.contained n :: .forget n :: (ns.map Task.enter ++ rest)).length :=
        Nat.le_succ_of_le hle₁
      have hstep := step_enter client (ns.map .enter ++ rest) callers hn
      obtain ⟨i, rfl, hi⟩ := fall_step hstep (ahead_machine hle) hk
      obtain ⟨jd, hjd, s₁, hdependents, hrund⟩ := ih i (Nat.lt_succ_self i) _
        (mt (Ahead.mono (Nat.le_succ_of_le hle₂)) hi)
      have hi₁ := fall_run hjd hrund hi
      obtain ⟨jo, hjo, s₂, hown, hruno⟩ := disposes_of_fall (mt (Ahead.mono hle₂) hi₁)
      have hi₂ := fall_run hjo hruno hi₁
      obtain ⟨ic, hic, hi₃⟩ := fall_step step_contained (ahead_machine hle₁) hi₂
      obtain ⟨jc, hjc, s₃, hcontained, hrunc⟩ := ih ic (by omega) _ (mt (Ahead.mono hle₁) hi₃)
      have hi₄ := fall_run hjc hrunc hi₃
      obtain ⟨ir, hir, hi₅⟩ := fall_step step_forget (ahead_machine hle) hi₄
      obtain ⟨jr, hjr, s', hrest, hrunr⟩ := ih ir (by omega) ns hi₅
      refine ⟨jd + (jo + (jc + (jr + 1) + 1)) + 1, by omega, s',
        .name hn hdependents hown hcontained hrest, ?_⟩
      rw [List.map_cons, List.cons_append, run_succ_of_step hstep, run_add, hrund, run_add, hruno,
        run_succ_of_step step_contained, run_add, hrunc, run_succ_of_step step_forget, hrunr]

theorem Razes.first_return {root : Name} (h : Razes client [root] s s') (rest : List (Task κ))
    (callers : List (Caller σ ρ κ)) :
    ∃ k, run client k (s.machine (.enter root :: rest) callers) = s'.machine rest callers ∧
      ∀ j < k, ∀ s'' : Site σ κ,
        run client j (s.machine (.enter root :: rest) callers) ≠ s''.machine rest callers := by
  obtain ⟨l, ht⟩ := Razes.trail h rest callers
  obtain ⟨k, hk, -, hahead⟩ := ht.run
  refine ⟨k, hk, fun j hj s'' hs => ?_⟩
  have ha := hahead j hj
  rw [List.map_singleton, List.singleton_append, hs] at ha
  exact not_ahead_machine ha

/-- A walk that has come to a name gets to the tasks below it if and only if the recursion ends,
and it first gets to them where the recursion ends: with the same registry, the same report, in
order, and the same memory of the client. -/
theorem teardown_is_recursive (client : Client σ ρ κ) (s : Site σ κ) (root : Name)
    (rest : List (Task κ)) (callers : List (Caller σ ρ κ)) :
    ((∃ (k : Nat) (s' : Site σ κ),
        run client k (s.machine (.enter root :: rest) callers) = s'.machine rest callers) ↔
        ∃ s', Razes client [root] s s') ∧
      ∀ s', Razes client [root] s s' →
        ∃ k, run client k (s.machine (.enter root :: rest) callers) = s'.machine rest callers ∧
          ∀ j < k, ∀ s'' : Site σ κ,
            run client j (s.machine (.enter root :: rest) callers) ≠ s''.machine rest callers := by
  refine ⟨⟨?_, ?_⟩, fun s' h => Razes.first_return h rest callers⟩
  · rintro ⟨k, s', hk⟩
    have hfall : ¬(run client k (s.machine (.enter root :: rest) callers)).Ahead rest callers := by
      rw [hk]
      exact not_ahead_machine
    obtain ⟨-, -, s'', h, -⟩ := razes_of_fall [root] hfall
    exact ⟨s'', h⟩
  · rintro ⟨s', h⟩
    obtain ⟨k, hk, -⟩ := Razes.first_return h rest callers
    exact ⟨k, s', hk⟩

end Walk

end Machine

end ObjectRegistry
