import ObjectRegistry.Proofs.Adjacency
import ObjectRegistry.Proofs.Calls

namespace ObjectRegistry

variable {σ ρ κ : Type}

/-- A program that never calls the registry. -/
def Program.Silent {α : Type} : Program σ ρ α → Prop
  | .done _ | .panic _ => True
  | .access _ next => ∀ memory, (next memory).Silent
  | .call _ _ => False

namespace Walk

/-- One task of a teardown whose destroy callbacks keep to themselves, whatever they come to. -/
inductive Quiet : Walk κ → Registry κ → Walk κ → Registry κ → Prop where
  | start {r : Registry κ} {n : Name} {rest : List (Task κ)} {visited : List Name}
    {report : Report} :
    Quiet ⟨.start n :: rest, visited, report⟩ r ⟨.enter n :: rest, [], report⟩ r
  | again {r : Registry κ} {n : Name} {rest : List (Task κ)} {visited : List Name}
    {report : Report} (hn : n ∈ visited) :
    Quiet ⟨.enter n :: rest, visited, report⟩ r ⟨rest, visited, report⟩ r
  | enter {r : Registry κ} {n : Name} {rest : List (Task κ)} {visited : List Name}
    {report : Report} (hn : n ∉ visited) :
    Quiet ⟨.enter n :: rest, visited, report⟩ r
      (Walk.enter ⟨rest, visited, report⟩ r n) (r.claim n)
  | dispose {r : Registry κ} {n : Name} {callback : Option κ} {claimed : Bool}
    {rest : List (Task κ)} {visited : List Name} {report : Report} (outcome : Except Fault Unit)
    (ho : callback = none → outcome = .ok ()) :
    Quiet ⟨.dispose n callback claimed :: rest, visited, report⟩ r
      ⟨rest, visited, report.settle n claimed outcome⟩ r
  | contained {r : Registry κ} {n : Name} {rest : List (Task κ)} {visited : List Name}
    {report : Report} :
    Quiet ⟨.contained n :: rest, visited, report⟩ r
      ⟨(r.edges.containedIn n).map .enter ++ rest, visited, report⟩
      { r with edges := r.edges.takeContained n }
  | forget {r : Registry κ} {n : Name} {rest : List (Task κ)} {visited : List Name}
    {report : Report} :
    Quiet ⟨.forget n :: rest, visited, report⟩ r ⟨rest, visited, report⟩ (r.forget n)
  | sweep {r : Registry κ} {rest : List (Task κ)} {visited : List Name} {report : Report} :
    Quiet ⟨.sweep :: rest, visited, report⟩ r ⟨rest, visited, report⟩ r.sweep

inductive Quiets : Walk κ → Registry κ → Walk κ → Registry κ → Prop where
  | refl (w : Walk κ) (r : Registry κ) : Quiets w r w r
  | head {w w₁ w' : Walk κ} {r r₁ r' : Registry κ} (h : Quiet w r w₁ r₁)
    (rest : Quiets w₁ r₁ w' r') : Quiets w r w' r'

/-- A stretch of a teardown, with the walks that it comes through, the last one apart. -/
inductive Passes : Walk κ → Registry κ → List (Walk κ) → Walk κ → Registry κ → Prop where
  | stay (w : Walk κ) (r : Registry κ) : Passes w r [] w r
  | head {w w₁ w' : Walk κ} {r r₁ r' : Registry κ} {seen : List (Walk κ)} (h : Quiet w r w₁ r₁)
    (rest : Passes w₁ r₁ seen w' r') : Passes w r (w :: seen) w' r'

def entryTasks (r : Registry κ) (n : Name) : List (Task κ) :=
  (r.edges.dependentsOf n).map .enter ++
    [.dispose n (r.disposers.find? n) (r.store.holds n || (r.disposers.find? n).isSome),
      .contained n, .forget n]

theorem enter_eq (rest : List (Task κ)) (visited : List Name) (report : Report) (r : Registry κ)
    (n : Name) :
    Walk.enter ⟨rest, visited, report⟩ r n = ⟨entryTasks r n ++ rest, n :: visited, report⟩ := by
  rw [entryTasks, List.append_assoc]
  rfl

theorem enter_mem_enters {names : List Name} {rest : List (Task κ)} {k : Name} :
    .enter k ∈ names.map .enter ++ rest ↔ k ∈ names ∨ .enter k ∈ rest := by
  simp only [List.mem_append, List.mem_map, Task.enter.injEq, exists_eq_right]

variable {w w' : Walk κ} {r r' : Registry κ} {keys : List Name}

theorem Passes.quiets {seen : List (Walk κ)} (h : Passes w r seen w' r') : Quiets w r w' r' := by
  induction h with
  | stay w r => exact .refl w r
  | head h _ ih => exact .head h ih

theorem Quiets.keeps {P : Walk κ → Registry κ → Prop} (h : Quiets w r w' r') (hp : P w r)
    (hs : ∀ {w r w' r'}, P w r → Quiet w r w' r' → P w' r') : P w' r' := by
  induction h with
  | refl => exact hp
  | head h _ ih => exact ih (hs hp h)

theorem Quiet.fewer (h : Quiet w r w' r') : r'.edges.Fewer r.edges := by
  cases h with
  | start => exact r.edges.fewer_refl
  | again hn => exact r.edges.fewer_refl
  | enter hn => exact r.edges.fewer_takeDependents _
  | dispose outcome => exact r.edges.fewer_refl
  | contained => exact r.edges.fewer_takeContained _
  | forget => exact r.edges.fewer_forget _
  | sweep => exact r.edges.fewer_empty

/-- A task costs more than the tasks that come of it, counting an edge for the entry that it may
lead to. -/
def weight : List (Task κ) → Nat
  | [] => 0
  | .start _ :: rest => 5 + weight rest
  | .enter _ :: rest => 4 + weight rest
  | _ :: rest => 1 + weight rest

def effort (keys : List Name) (w : Walk κ) (r : Registry κ) : Nat :=
  weight w.tasks + 4 * r.edges.load keys

theorem weight_enters (names : List Name) (rest : List (Task κ)) :
    weight (names.map .enter ++ rest) = 4 * names.length + weight rest := by
  induction names with
  | nil => simp only [List.map_nil, List.nil_append, List.length_nil, Nat.mul_zero, Nat.zero_add]
  | cons n names ih =>
    simp only [List.map_cons, List.cons_append, weight, ih, List.length_cons]
    omega

theorem Quiet.effort_lt (h : Quiet w r w' r') (hk : r.edges.Within keys) :
    w'.effort keys r' < w.effort keys r := by
  have hload : r'.edges.load keys ≤ r.edges.load keys := h.fewer.load_le
  cases h with
  | start =>
    simp only [effort, weight]
    omega
  | again hn =>
    simp only [effort, weight]
    omega
  | dispose outcome =>
    simp only [effort, weight]
    omega
  | forget =>
    simp only [effort, weight]
    omega
  | sweep =>
    simp only [effort, weight]
    omega
  | @enter _ n rest visited report hn =>
    have hloss : (r.edges.takeDependents n).load keys + (r.edges.dependentsOf n).length ≤
        r.edges.load keys := by
      apply (r.edges.fewer_takeDependents n).load_add_le hk (n := n)
      simp only [Edges.dependentsOf_takeDependents, Edges.containedIn_takeDependents, ↓reduceIte,
        List.length_nil]
      omega
    change weight ((r.edges.dependentsOf n).map .enter ++ _) +
      4 * (r.edges.takeDependents n).load keys < _
    simp only [weight_enters, effort, weight]
    omega
  | @contained _ n rest visited report =>
    have hloss : (r.edges.takeContained n).load keys + (r.edges.containedIn n).length ≤
        r.edges.load keys := by
      apply (r.edges.fewer_takeContained n).load_add_le hk (n := n)
      simp only [Edges.dependentsOf_takeContained, Edges.containedIn_takeContained, ↓reduceIte,
        List.length_nil]
      omega
    simp only [effort, weight_enters, weight]
    omega

theorem Quiet.tasks_inv (h : Quiet w r w' r') :
    ∃ task rest, w.tasks = task :: rest ∧
      ((∃ names : List Name, w'.tasks = names.map .enter ++ rest) ∨
        ∃ n, task = .enter n ∧ n ∉ w.visited ∧
          w' = Walk.enter ⟨rest, w.visited, w.report⟩ r n) := by
  cases h with
  | @start _ n => exact ⟨_, _, rfl, .inl ⟨[n], rfl⟩⟩
  | again hn => exact ⟨_, _, rfl, .inl ⟨[], rfl⟩⟩
  | @enter _ n _ _ _ hn => exact ⟨_, _, rfl, .inr ⟨n, rfl, hn, rfl⟩⟩
  | dispose outcome => exact ⟨_, _, rfl, .inl ⟨[], rfl⟩⟩
  | @contained _ n => exact ⟨_, _, rfl, .inl ⟨r.edges.containedIn n, rfl⟩⟩
  | forget => exact ⟨_, _, rfl, .inl ⟨[], rfl⟩⟩
  | sweep => exact ⟨_, _, rfl, .inl ⟨[], rfl⟩⟩

/-- What stands below the head of the tasks stays where it is. -/
theorem Quiet.tasks_above {task : Task κ} (hq : Quiet w r w' r')
    (hw : w.tasks = task :: rest) : ∃ above, w'.tasks = above ++ rest := by
  obtain ⟨_, _, hw₁, hnew⟩ := hq.tasks_inv
  obtain ⟨rfl, rfl⟩ := List.cons.inj (hw₁.symm.trans hw)
  obtain ⟨names, hw'⟩ | ⟨n, -, -, rfl⟩ := hnew
  · exact ⟨_, hw'⟩
  · rw [enter_eq]
    exact ⟨_, rfl⟩

theorem Quiet.mem_tasks_inv (h : Quiet w r w' r') {t : Task κ} (ht : t ∈ w'.tasks) :
    t ∈ w.tasks ∨ (∃ n, t = .enter n) ∨
      ∃ n rest, w.tasks = .enter n :: rest ∧ n ∉ w.visited ∧ n ∈ w'.visited ∧
        (t = .dispose n (r.disposers.find? n)
            (r.store.holds n || (r.disposers.find? n).isSome) ∨
          t = .contained n ∨ t = .forget n) := by
  obtain ⟨task, rest, hw, ⟨names, hw'⟩ | ⟨n, rfl, hn, rfl⟩⟩ := h.tasks_inv
  · rw [hw'] at ht
    obtain ht | ht := List.mem_append.1 ht
    · obtain ⟨k, -, rfl⟩ := List.mem_map.1 ht
      exact .inr (.inl ⟨k, rfl⟩)
    · exact .inl (hw ▸ List.mem_cons_of_mem _ ht)
  · obtain ht | ht := List.mem_append.1 ht
    · obtain ⟨k, -, rfl⟩ := List.mem_map.1 ht
      exact .inr (.inl ⟨k, rfl⟩)
    · simp only [List.mem_cons] at ht
      obtain ht | ht | ht | ht := ht
      · exact .inr (.inr ⟨n, rest, hw, hn, List.mem_cons_self, .inl ht⟩)
      · exact .inr (.inr ⟨n, rest, hw, hn, List.mem_cons_self, .inr (.inl ht)⟩)
      · exact .inr (.inr ⟨n, rest, hw, hn, List.mem_cons_self, .inr (.inr ht)⟩)
      · exact .inl (hw ▸ List.mem_cons_of_mem _ ht)

theorem Quiet.dispose_inv (h : Quiet w r w' r') {n : Name} {callback : Option κ} {claimed : Bool}
    (hd : .dispose n callback claimed ∈ w'.tasks) :
    .dispose n callback claimed ∈ w.tasks ∨
      callback = r.disposers.find? n ∧ claimed = (r.store.holds n || callback.isSome) := by
  obtain hd | ⟨k, hk⟩ | ⟨k, _, -, -, -, hk | hk | hk⟩ := h.mem_tasks_inv hd
  · exact .inl hd
  · cases hk
  · cases hk
    exact .inr ⟨rfl, rfl⟩
  · cases hk
  · cases hk

theorem turn_eq_over (hw : w.tasks = []) (r : Registry κ) : w.turn r = .over := by
  rw [turn.eq_def, hw]

theorem turn_quiet (hw : w.tasks ≠ []) :
    (∃ w' r' events, w.turn r = .moved w' r' events ∧ Quiet w r w' r') ∨
      ∃ n callback claimed rest, w.turn r = .ask n callback claimed rest ∧
        .dispose n (some callback) claimed ∈ w.tasks ∧
        ∀ outcome, Quiet w r (rest.settle n claimed outcome) r := by
  obtain ⟨tasks, visited, report⟩ := w
  cases tasks with
  | nil => exact absurd rfl hw
  | cons task rest =>
    cases task with
    | start n => exact .inl ⟨_, _, _, rfl, .start⟩
    | contained n => exact .inl ⟨_, _, _, rfl, .contained⟩
    | forget n => exact .inl ⟨_, _, _, rfl, .forget⟩
    | sweep => exact .inl ⟨_, _, _, rfl, .sweep⟩
    | dispose n callback claimed =>
      cases callback with
      | none => exact .inl ⟨_, _, _, rfl, .dispose (.ok ()) fun _ => rfl⟩
      | some callback =>
        exact .inr ⟨n, callback, claimed, _, rfl, List.mem_cons_self,
          fun outcome => .dispose outcome nofun⟩
    | enter n =>
      left
      by_cases hn : n ∈ visited
      · exact ⟨_, _, _, if_pos hn, .again hn⟩
      · exact ⟨_, _, _, if_neg hn, .enter hn⟩

structure Callbacks (P : κ → Prop) (w : Walk κ) (r : Registry κ) : Prop where
  waiting : ∀ {n callback claimed}, .dispose n (some callback) claimed ∈ w.tasks → P callback
  kept : ∀ entry ∈ r.disposers.entries, P entry.2

theorem mem_of_lookup {entries : List (Name × κ)} {n : Name} {callback : κ}
    (h : entries.lookup n = some callback) : (n, callback) ∈ entries := by
  obtain ⟨before, after, rfl, -⟩ := List.lookup_eq_some_iff.1 h
  exact List.mem_append_right before List.mem_cons_self

theorem Quiet.entries_sublist (h : Quiet w r w' r') :
    r'.disposers.entries.Sublist r.disposers.entries := by
  cases h with
  | start => exact List.Sublist.refl _
  | again hn => exact List.Sublist.refl _
  | enter hn => exact List.filter_sublist
  | dispose outcome => exact List.Sublist.refl _
  | contained => exact List.Sublist.refl _
  | forget => exact List.Sublist.refl _
  | sweep => exact List.nil_sublist _

theorem Callbacks.quiet {P : κ → Prop} (hc : Callbacks P w r) (h : Quiet w r w' r') :
    Callbacks P w' r' := by
  refine ⟨fun hd => ?_, fun entry he => hc.kept entry (h.entries_sublist.subset he)⟩
  obtain hd | ⟨hcallback, -⟩ := h.dispose_inv hd
  · exact hc.waiting hd
  · exact hc.kept _ (mem_of_lookup hcallback.symm)

theorem Callbacks.one {P : κ → Prop} {n : Name} (h : ∀ entry ∈ r.disposers.entries, P entry.2) :
    Callbacks P (.one n) r :=
  ⟨fun h => (by cases List.mem_singleton.1 h), h⟩

theorem Callbacks.all {P : κ → Prop} {d : Disposers κ}
    (h : ∀ entry ∈ r.disposers.entries, P entry.2) : Callbacks P (.all d) r := by
  refine ⟨fun h => ?_, h⟩
  obtain h | h := List.mem_append.1 h
  · obtain ⟨k, -, hk⟩ := List.mem_map.1 h
    cases hk
  · cases List.mem_singleton.1 h

end Walk

namespace Machine

variable [Language ρ κ] {client : Client σ ρ κ} {m : Machine σ ρ κ} {r r' : Registry κ}

def Mute (m : Machine σ ρ κ) : Prop := m.registry.reply? m.deed = none

theorem Mute.gives (h : m.Mute) (depth : Nat) : m.gives client depth = none := by
  rw [Machine.gives]
  split
  · split
    · exact h
    · rfl
  · rfl

/-- A stretch of a run on which nobody is answered, with what it does. -/
def Unanswered (client : Client σ ρ κ) (m : Machine σ ρ κ) (done : List (Deed κ))
    (m' : Machine σ ρ κ) : Prop :=
  ∃ k, run client k m = m' ∧ deeds client k m = done ∧ ∀ j < k, (run client j m).Mute

theorem Unanswered.stay (m : Machine σ ρ κ) : Unanswered client m [] m :=
  ⟨0, rfl, rfl, fun _ hj => absurd hj (Nat.not_lt_zero _)⟩

theorem Unanswered.step {m₁ m' : Machine σ ρ κ} {done : List (Deed κ)} (hm : m.Mute)
    (h : m.step client = some m₁) (rest : Unanswered client m₁ done m') :
    Unanswered client m (m.deed :: done) m' := by
  obtain ⟨k, hk, hdone, hmute⟩ := rest
  refine ⟨k + 1, by rw [run_succ_of_step h, hk], by rw [deeds_succ h, hdone], fun j hj => ?_⟩
  cases j with
  | zero => exact hm
  | succ j =>
    rw [run_succ_of_step h]
    exact hmute j (Nat.lt_of_succ_lt_succ hj)

theorem Unanswered.trans {m₁ m' : Machine σ ρ κ} {done done' : List (Deed κ)}
    (h : Unanswered client m done m₁) (h' : Unanswered client m₁ done' m') :
    Unanswered client m (done ++ done') m' := by
  obtain ⟨j, rfl, rfl, hj⟩ := h
  obtain ⟨k, rfl, rfl, hk⟩ := h'
  refine ⟨j + k, run_add j k m, deeds_add j k m, fun i hi => ?_⟩
  by_cases hij : i < j
  · exact hj i hij
  · obtain ⟨d, rfl⟩ := Nat.exists_eq_add_of_le (Nat.le_of_not_lt hij)
    rw [run_add]
    exact hk d (by omega)

theorem Unanswered.answersAfter {m₁ m₂ : Machine σ ρ κ} {done : List (Deed κ)} {a : Answer}
    (hm : Unanswered client m done m₁) (h : m₁.step client = some m₂)
    (hd : m₂.duties.length = m.duties.length) (ha : m₁.registry.reply? m₁.deed = some a) :
    ∃ k, m.AnswersAfter client k a ∧ (run client (k + 1) m).registry = m₂.registry ∧
      deeds client k m = done := by
  obtain ⟨k, rfl, hdone, hk⟩ := hm
  refine ⟨k, ⟨?_, fun j hj => (hk j hj).gives _⟩, by rw [run_succ, h, Option.getD_some], hdone⟩
  rw [← hd]
  exact gives_of_reply h ha

theorem silent_ends (client : Client σ ρ κ) (r : Registry κ) (n : Name) (claimed : Bool)
    (rest : Walk κ) {program : Program σ ρ (Except Fault Unit)} (hp : program.Silent) (memory : σ)
    (callers : List (Caller σ ρ κ)) :
    ∃ done memory' outcome,
      Unanswered client ⟨r, memory, .code (.dispose n claimed rest) program, callers⟩ done
        ⟨r, memory', .tearDown (rest.settle n claimed outcome), callers⟩ := by
  induction program generalizing memory with
  | done outcome => exact ⟨_, _, outcome, .step rfl rfl (.stay _)⟩
  | panic p => exact ⟨_, _, _, .step rfl rfl (.stay _)⟩
  | call request next => cases hp
  | access change next ih =>
    obtain ⟨done, memory', outcome, hdone⟩ := ih memory (hp memory) (change memory)
    exact ⟨_, memory', outcome, .step rfl rfl hdone⟩

theorem tearDown_ends {keys : List Name} {bound : Nat} {w : Walk κ}
    (hb : w.effort keys r < bound) (hk : r.edges.Within keys)
    (hc : w.Callbacks (fun callback => (client.disposer callback).Silent) r) (memory : σ)
    (callers : List (Caller σ ρ κ)) :
    ∃ done seen memory' w' r',
      Unanswered client ⟨r, memory, .tearDown w, callers⟩ done
          ⟨r', memory', .tearDown w', callers⟩ ∧
        w.Passes r seen w' r' ∧ w'.tasks = [] ∧ (seen.map Deed.turned).Sublist done := by
  induction bound generalizing w r memory with
  | zero => exact absurd hb (Nat.not_lt_zero _)
  | succ bound ih =>
    by_cases hw : w.tasks = []
    · exact ⟨[], [], memory, w, r, .stay _, .stay w r, hw, List.Sublist.refl _⟩
    obtain ⟨w₁, r₁, events, ht, hq⟩ | ⟨n, callback, claimed, rest, ht, hmem, hq⟩ :=
      Walk.turn_quiet (r := r) hw
    · have hlt := hq.effort_lt hk
      obtain ⟨done, seen, memory', w', r', hmute, hpass, hend, hseen⟩ :=
        ih (by omega) (hq.fewer.within hk) (hc.quiet hq) (remember client events memory)
      refine ⟨_, _, memory', w', r', .step ?_ ?_ hmute, .head hq hpass, hend, hseen.cons_cons _⟩
      · simp only [Mute, deed, Registry.reply?, ht]
      · simp only [step, ht]
    · obtain ⟨own, memory₁, outcome, hown⟩ :=
        silent_ends client r n claimed rest (hc.waiting hmem) memory callers
      have hq₁ := hq outcome
      have hlt := hq₁.effort_lt hk
      obtain ⟨done, seen, memory', w', r', hmute, hpass, hend, hseen⟩ :=
        ih (by omega) (hq₁.fewer.within hk) (hc.quiet hq₁) memory₁
      refine ⟨_, _, memory', w', r', .step ?_ ?_ (hown.trans hmute), .head hq₁ hpass, hend,
        (hseen.trans (List.sublist_append_right own done)).cons_cons _⟩
      · simp only [Mute, deed, Registry.reply?, ht]
      · simp only [step, ht]

theorem step_tearDown (client : Client σ ρ κ) {op : Op κ} {w : Walk κ} {events : List Event}
    (hd : m.deed = .asked op) (hs : m.registry.start op = .tearDown w r events) :
    ∃ memory caller callers,
      m.step client = some ⟨r, memory, .tearDown w, caller :: callers⟩ ∧
        (caller :: callers).map (·.duty) = m.duties := by
  obtain ⟨r₀, memory, activity, callers⟩ := m
  obtain ⟨duty, request, next, rfl, rfl⟩ := call_of_asked hd
  refine ⟨remember client events memory, ⟨duty, next⟩, callers, ?_, rfl⟩
  simp only [step, hs, begin]

theorem step_over (client : Client σ ρ κ) (r : Registry κ) (memory : σ) (caller : Caller σ ρ κ)
    (callers : List (Caller σ ρ κ)) {w : Walk κ} (hw : w.tasks = []) :
    step client ⟨r, memory, .tearDown w, caller :: callers⟩ =
        some ⟨r, memory, .code caller.duty (caller.resume (.report w.report)), callers⟩ ∧
      r.reply? (deed ⟨r, memory, .tearDown w, caller :: callers⟩) = some (.report w.report) := by
  constructor
  · simp only [step, Walk.turn_eq_over hw]
    rfl
  · simp only [deed, Registry.reply?, Walk.turn_eq_over hw]

section Returns

variable {op : Op κ} {w : Walk κ} {events : List Event} (hd : m.deed = .asked op)
  (hs : m.registry.start op = .tearDown w r events)
  (hc : w.Callbacks (fun callback => (client.disposer callback).Silent) r)
include hd hs hc

theorem tearDown_passes :
    ∃ k seen w' r', m.AnswersAfter client k (.report w'.report) ∧
      (run client (k + 1) m).registry = r' ∧ w.Passes r seen w' r' ∧ w'.tasks = [] ∧
      (seen.map Deed.turned).Sublist (deeds client k m) := by
  obtain ⟨memory, caller, callers, hstep, hduties⟩ := step_tearDown client hd hs
  obtain ⟨done, seen, memory', w', r', hmute, hpass, hw, hseen⟩ :=
    tearDown_ends (Nat.lt_succ_self _) r.edges.within_keys hc memory (caller :: callers)
  have hm : m.Mute := by
    rw [Mute, hd, Registry.reply?, hs]
    rfl
  obtain ⟨hlast, hreply⟩ := step_over client r' memory' caller callers hw
  have hlength : (caller.duty :: callers.map (·.duty)).length = m.duties.length := by
    rw [← hduties]
    rfl
  obtain ⟨k, ha, hr, hdone⟩ :=
    (Unanswered.step hm hstep hmute).answersAfter hlast hlength hreply
  exact ⟨k, seen, w', r', ha, hr, hpass, hw, hdone ▸ hseen.cons _⟩

theorem tearDown_returns :
    ∃ w' r', w.Quiets r w' r' ∧ w'.tasks = [] ∧ m.Returns client (.report w'.report) r' := by
  obtain ⟨k, _, w', r', ha, hr, hpass, hw, -⟩ := tearDown_passes hd hs hc
  exact ⟨w', r', hpass.quiets, hw, k, ha, hr⟩

theorem tearDown_answers :
    ∃ w' r', w.Quiets r w' r' ∧ w'.tasks = [] ∧ m.Answers client (.report w'.report) := by
  obtain ⟨w', r', hq, hw, ha⟩ := tearDown_returns hd hs hc
  exact ⟨w', r', hq, hw, ha.answers⟩

end Returns

end Machine

end ObjectRegistry
