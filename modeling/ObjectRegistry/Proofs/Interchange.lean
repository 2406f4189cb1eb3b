import ObjectRegistry.Proofs.Closure
import ObjectRegistry.Proofs.Failures

namespace ObjectRegistry

variable {σ ρ κ : Type}

open Relation

section Both

variable {gone gone' both : List Name} (hboth : ∀ k, k ∈ both ↔ k ∈ gone ∨ k ∈ gone')
include hboth

theorem filter_not_mem_both {α : Type} (key : α → Name) (l : List α) :
    (l.filter fun x => key x ∉ gone).filter (fun x => key x ∉ gone') =
      l.filter fun x => key x ∉ both := by
  rw [List.filter_filter]
  congr 1
  funext x
  simp only [hboth, not_or, Bool.decide_and, Bool.and_comm]

theorem NameMap.filter_not_mem_both {α : Type} (t : NameMap α) :
    (t.filter fun k _ => k ∉ gone).filter (fun k _ => k ∉ gone') =
      t.filter fun k _ => k ∉ both := by
  apply Std.ExtTreeMap.ext_getElem?
  intro k
  simp only [Std.ExtTreeMap.getElem?_filter', Option.filter_filter, hboth, not_or,
    Bool.decide_and]

theorem Store.without_without (s : Store κ) :
    (s.without gone).without gone' = s.without both := by
  have hfiled : (s.filed.filter (· ∉ gone)).filter (· ∉ gone') = s.filed.filter (· ∉ both) :=
    filter_not_mem_both hboth id s.filed
  simp only [without, NameMap.filter_not_mem_both hboth, hfiled]

theorem Disposers.without_without (d : Disposers κ) :
    (d.without gone).without gone' = d.without both :=
  congrArg _ (filter_not_mem_both hboth (·.1) d.entries)

theorem Adjacency.without_without (a : Adjacency) :
    (a.without gone).without gone' = a.without both := by
  apply Std.ExtTreeMap.ext_getElem?
  intro n
  have hset : ((members a n).filter (· ∉ gone)).filter (· ∉ gone') =
      (members a n).filter (· ∉ both) :=
    filter_not_mem_both hboth id (members a n)
  rw [getElem?_without, getElem?_without, members_without]
  by_cases hn : n ∈ gone
  · simp only [hn, ↓reduceIte, List.filter_nil, or_true, (hboth n).2 (.inl hn), true_or]
  · have hn' : n ∈ both ↔ n ∈ gone' := (hboth n).trans (or_iff_right hn)
    simp only [hn, ↓reduceIte, hset, hn']

theorem Edges.without_without (e : Edges) : (e.without gone).without gone' = e.without both := by
  simp only [without, Adjacency.without_without hboth]

theorem Registry.without_without (r : Registry κ) :
    (r.without gone).without gone' = r.without both := by
  simp only [without, Store.without_without hboth, Edges.without_without hboth,
    Disposers.without_without hboth]

end Both

namespace Edges

variable {e : Edges} {gone : List Name} {n k x y : Name}

theorem leads_without : (e.without gone).Leads x y ↔ e.Leads x y ∧ x ∉ gone ∧ y ∉ gone := by
  rw [Leads, Leads, or_and_right]
  exact or_congr Adjacency.mem_without Adjacency.mem_without

/-- Once names are gone with all that they lead to, a path runs into them or around them. -/
theorem mem_or_reached_without (hclosed : ∀ {x y}, x ∈ gone → e.Leads x y → y ∈ gone) :
    k ∈ gone ∨ ReflTransGen (e.without gone).Leads n k ↔ k ∈ gone ∨ ReflTransGen e.Leads n k := by
  refine ⟨Or.imp_right (ReflTransGen.mono (fun _ _ h => (leads_without.1 h).1) _ _), ?_⟩
  rintro (hk | hk)
  · exact .inl hk
  -- By induction on the path: it cannot come out of `gone`, so it ends there or stayed around it.
  induction hk with
  | refl => exact .inr .refl
  | @tail x y _ hxy ih =>
    by_cases hy : y ∈ gone
    · exact .inl hy
    · have hx : x ∉ gone := fun hx => hy (hclosed hx hxy)
      exact .inr ((ih.resolve_left hx).tail (leads_without.2 ⟨hxy, hx, hy⟩))

end Edges

namespace Program

/-- Whether a destroy callback that keeps to itself fails or panics when it begins with this
memory. -/
def fails : Program σ ρ (Except Fault Unit) → σ → Bool
  | .done (.ok ()), _ | .call .., _ => false
  | .done (.error _), _ | .panic _, _ => true
  | .access change next, memory => (next memory).fails (change memory)

/-- As long as the memory has a property, it is settled whether the callback fails. -/
def Steady (I : σ → Prop) (program : Program σ ρ (Except Fault Unit)) : Prop :=
  ∀ memory memory', I memory → I memory' → program.fails memory = program.fails memory'

def Keeps (I : σ → Prop) {α : Type} : Program σ ρ α → Prop
  | .done _ | .panic _ => True
  | .access change next => ∀ memory, I memory → I (change memory) ∧ (next memory).Keeps I
  | .call _ next => ∀ a, (next a).Keeps I

theorem fails_iff {program : Program σ ρ (Except Fault Unit)} {outcome : Except Fault Unit}
    (h : program.outcome? = some outcome) (memory : σ) :
    program.fails memory = true ↔ ∃ fault, outcome = .error fault := by
  cases program with
  | done result =>
    cases h
    cases outcome <;> simp [fails]
  | panic p =>
    cases h
    simp [fails]
  | access | call => cases h

end Program

/-- No destroy callback takes a property from the memory of the client, and no event does. -/
structure Client.Keeps (client : Client σ ρ κ) (I : σ → Prop) : Prop where
  disposer : ∀ callback, (client.disposer callback).Keeps I
  hear : ∀ event {memory}, I memory → I (client.hear event memory)

theorem Client.Keeps.remember {client : Client σ ρ κ} {I : σ → Prop} (h : client.Keeps I)
    (events : List Event) {memory : σ} (hI : I memory) :
    I (Machine.remember client events memory) := by
  induction events generalizing memory with
  | nil => exact hI
  | cons event events ih => exact ih (h.hear event hI)

namespace Registry

variable (client : Client σ ρ κ) (I : σ → Prop) (r : Registry κ)

def Steady (n : Name) : Prop :=
  ∀ entry ∈ r.disposers.entries, entry.1 = n → (client.disposer entry.2).Steady I

def Fails (n : Name) : Prop :=
  ∃ entry ∈ r.disposers.entries, entry.1 = n ∧
    ∃ memory, I memory ∧ (client.disposer entry.2).fails memory = true

/-- What teardowns report as torn down that have taken the names in `gone` from the registry. -/
structure Reported (r : Registry κ) (gone destroyed : List Name) : Prop where
  nodup : destroyed.Nodup
  mem_iff : ∀ {k}, k ∈ destroyed ↔ k ∈ gone ∧ r.Alive k

/-- What they report as failing, as far as that is settled. -/
def Faulted (gone failed : List Name) : Prop :=
  ∀ k, r.Steady client I k → (k ∈ failed ↔ k ∈ gone ∧ r.Fails client I k)

variable {client I r} {gone gone' both : List Name} {k : Name}

theorem Steady.without (h : r.Steady client I k) (gone : List Name) :
    (r.without gone).Steady client I k :=
  fun entry hentry => h entry (List.mem_filter.1 hentry).1

theorem fails_without :
    (r.without gone).Fails client I k ↔ r.Fails client I k ∧ k ∉ gone := by
  simp only [Fails, Registry.without, Disposers.without, List.mem_filter, decide_eq_true_eq]
  constructor
  · rintro ⟨entry, ⟨hmem, hgone⟩, rfl, hfails⟩
    exact ⟨⟨entry, hmem, rfl, hfails⟩, hgone⟩
  · rintro ⟨⟨entry, hmem, rfl, hfails⟩, hgone⟩
    exact ⟨entry, ⟨hmem, hgone⟩, rfl, hfails⟩

section Append

variable (hboth : ∀ k, k ∈ both ↔ k ∈ gone ∨ k ∈ gone')
include hboth

theorem Reported.append {destroyed destroyed' : List Name} (h : r.Reported gone destroyed)
    (h' : (r.without gone).Reported gone' destroyed') :
    r.Reported both (destroyed ++ destroyed') where
  nodup := by
    refine h.nodup.append h'.nodup fun k hk hk' => ?_
    exact (alive_without.1 (h'.mem_iff.1 hk').2).2 (h.mem_iff.1 hk).1
  mem_iff {k} := by
    rw [List.mem_append, h.mem_iff, h'.mem_iff, alive_without, hboth]
    tauto

theorem Faulted.append {failed failed' : List Name} (h : r.Faulted client I gone failed)
    (h' : (r.without gone).Faulted client I gone' failed') :
    r.Faulted client I both (failed ++ failed') := by
  intro k hk
  rw [List.mem_append, h k hk, h' k (hk.without gone), fails_without, hboth]
  tauto

end Append

end Registry

namespace Walk

variable {w w' rest : Walk κ} {r r' : Registry κ} {root : Name}
  {ran : List ((Name × κ) × Except Fault Unit)}

/-- A course without a sweep runs the callbacks that leave the table, except for those it still
holds. -/
theorem Course.perm (h : Course w r ran w' r') (hn : r.disposers.names.Nodup)
    (hs : .sweep ∉ w.tasks) :
    (w.held ++ r.disposers.entries).Perm
      (ran.map (·.1) ++ (w'.held ++ r'.disposers.entries)) := by
  induction h with
  | stay => exact List.Perm.refl _
  | @moved w w₁ _ r r₁ _ events ran ht _ ih =>
    have hq := quiet_of_moved ht
    have hn₁ : r₁.disposers.names.Nodup := hn.sublist (hq.entries_sublist.map _)
    have hturn := held_turn hn w
    rw [ht, r.swept_of_tasks fun rest hw => hs (hw ▸ List.mem_cons_self)] at hturn
    exact hturn.trans (ih hn₁ (mt hq.sweep_of_sweep hs))
  | @called w w₁ _ r _ n callback claimed ran ht outcome _ ih =>
    have hq := quiet_of_ask ht outcome
    have hturn := held_turn hn w
    rw [ht, r.swept_of_tasks fun rest hw => hs (hw ▸ List.mem_cons_self)] at hturn
    exact hturn.trans ((ih hn (mt hq.sweep_of_sweep hs)).cons (n, callback))

theorem Course.mem_failures (h : Course w r ran w' r') {k : Name} :
    k ∈ w'.report.failures.map (·.1) ↔
      k ∈ w.report.failures.map (·.1) ∨ ∃ e ∈ ran, e.1.1 = k ∧ ∃ fault, e.2 = .error fault := by
  rw [h.failures, List.map_append, List.mem_append, List.map_filterMap, List.mem_filterMap]
  refine or_congr_right (exists_congr fun e => and_congr_right fun _ => ?_)
  obtain ⟨⟨n, callback⟩, outcome⟩ := e
  cases outcome <;> simp [Report.failed?]

section One

variable (h : Course (.one root) r ran w' r') (hn : r.disposers.names.Nodup)
include h hn

theorem Course.perm_one :
    r.disposers.entries.Perm (ran.map (·.1) ++ (w'.held ++ r'.disposers.entries)) :=
  h.perm hn fun hs => by cases List.mem_singleton.1 hs

theorem Course.asked_mem {n : Name} {callback : κ} {claimed : Bool}
    (ht : w'.turn r' = .ask n callback claimed rest) : (n, callback) ∈ r.disposers.entries := by
  have hheld : (n, callback) ∈ w'.held := by
    rw [held, tasks_of_ask ht]
    exact List.mem_cons_self
  exact (h.perm_one hn).mem_iff.2 (List.mem_append_right _ (List.mem_append_left _ hheld))

theorem Course.mem_ran (h₀ : r.Sound) (hend : w'.tasks = []) {entry : Name × κ} :
    entry ∈ ran.map (·.1) ↔ entry ∈ r.disposers.entries ∧ entry.1 ∈ w'.visited := by
  have hkept : r'.disposers.entries = r.disposers.entries.filter (·.1 ∉ w'.visited) := by
    rw [(h.quiets.severs h₀).eq_without hend h₀]
    rfl
  have hheld : w'.held = [] := by rw [held, hend, List.filterMap_nil]
  -- What has run and what the table keeps make up the old table, as do the visited names and the
  -- others.
  have hperm := h.perm_one hn
  rw [hheld, List.nil_append, hkept] at hperm
  have hsplit := List.filter_append_perm (fun e => decide (e.1 ∈ w'.visited)) r.disposers.entries
  simp only [← decide_not] at hsplit
  have hran := (List.perm_append_right_iff _).1 (hsplit.trans hperm)
  rw [← hran.mem_iff, List.mem_filter, decide_eq_true_eq]

end One

end Walk

namespace Machine

variable [Language ρ κ] {client : Client σ ρ κ} {I : σ → Prop} {m m' : Machine σ ρ κ}

/-- The memory has kept a property. If a destroy callback runs, it fails if and only if one of the
callbacks in `entries` fails that begins with a memory of this kind. -/
structure Pursues (client : Client σ ρ κ) (I : σ → Prop) (entries : List (Name × κ))
    (m : Machine σ ρ κ) : Prop where
  kept : I m.memory
  running : ∀ n claimed rest program, m.activity = .code (.dispose n claimed rest) program →
    program.Keeps I ∧ ∃ entry ∈ entries, entry.1 = n ∧
      ∃ memory, I memory ∧ program.fails m.memory = (client.disposer entry.2).fails memory

theorem Pursues.step {root : Name} {r : Registry κ} {callers : List (Caller σ ρ κ)}
    {runs : List (Name × κ)} {ends : List (Name × Except Fault Unit)}
    (hp : m.Pursues client I r.disposers.entries) (hI : client.Keeps I)
    (hn : r.disposers.names.Nodup) (hm : Tearing (.one root) r callers runs ends m)
    (hmute : m.Mute) (h : m.step client = some m') :
    m'.Pursues client I r.disposers.entries := by
  obtain ⟨hkept, hrunning⟩ := hp
  cases hm with
  | @walking w r' memory ran hcourse =>
    simp only [Machine.step] at h
    simp only [Mute, deed, Registry.reply?] at hmute
    cases ht : w.turn r' with
    | «over» =>
      rw [ht] at hmute
      cases hmute
    | moved w' r'' events =>
      rw [ht] at h
      cases h
      exact ⟨hI.remember events hkept, fun _ _ _ _ ha => by cases ha⟩
    | ask n callback claimed rest =>
      rw [ht] at h
      cases h
      refine ⟨hkept, fun n claimed rest program ha => ?_⟩
      cases ha
      exact ⟨hI.disposer callback, (n, callback), hcourse.asked_mem hn ht, rfl, memory, hkept, rfl⟩
  | @calling _ _ _ memory _ _ _ program _ _ _ hsilent =>
    cases program with
    | done | panic =>
      cases h
      exact ⟨hI.remember _ hkept, fun _ _ _ _ ha => by cases ha⟩
    | access change next =>
      cases h
      obtain ⟨hkeeps, hfails⟩ := hrunning _ _ _ _ rfl
      obtain ⟨hkept', hnext⟩ := hkeeps memory hkept
      refine ⟨hkept', fun n claimed rest program ha => ?_⟩
      cases ha
      exact ⟨hnext, hfails⟩
    | call => cases hsilent

theorem memory_tearDown {op : Op κ} {w : Walk κ} {r : Registry κ} {events : List Event}
    (hd : m.deed = .asked op) (hs : m.registry.start op = .tearDown w r events)
    (h : m.step client = some m') : m'.memory = remember client events m.memory := by
  obtain ⟨r₀, memory, activity, callers⟩ := m
  obtain ⟨duty, request, next, rfl, rfl⟩ := call_of_asked hd
  simp only [Machine.step, hs, begin] at h
  cases h
  rfl

section Destroy

variable {root : Name} (hs : client.Discreet) (hn : m.registry.disposers.names.Nodup)
  (hd : m.deed = .asked (.destroy root))
include hs hn hd

theorem pursues_run {k : Nat} {a : Answer} (ha : m.AnswersAfter client k a) (hI : client.Keeps I)
    (hm : I m.memory) :
    ∀ j < k, (run client (j + 1) m).Pursues client I m.registry.disposers.entries := by
  have hc := hs.callbacks m.registry root
  obtain ⟨memory, caller, callers, hstep, hduties⟩ := step_tearDown client hd rfl
  intro j hj
  induction j with
  | zero =>
    have hmemory : memory = m.memory := memory_tearDown hd rfl hstep
    rw [run_succ_of_step hstep]
    exact ⟨hmemory ▸ hm, fun _ _ _ _ ha => by cases ha⟩
  | succ j ih =>
    have hm := tearing_run hd rfl hc ha hstep hduties j (by omega)
    obtain ⟨m'', hlast, -⟩ := gives_inv ha.1
    obtain ⟨m', h⟩ := step_of_le (Nat.le_of_lt hj) hlast
    rw [run_succ, h]
    have hp := ih (by omega)
    exact hp.step hI hn hm (hm.mute (hduties ▸ ha.2 (j + 1) hj)) h

theorem fails_of_verdict {k : Nat} {a : Answer} (ha : m.AnswersAfter client k a)
    (hI : client.Keeps I) (hm : I m.memory) {n : Name} {outcome : Except Fault Unit}
    (hv : (n, outcome) ∈ verdicts client (k + 1) m) :
    ∃ entry ∈ m.registry.disposers.entries, entry.1 = n ∧ ∃ memory, I memory ∧
      ((client.disposer entry.2).fails memory = true ↔ ∃ fault, outcome = .error fault) := by
  obtain ⟨j, hj, hv⟩ := List.mem_filterMap.1 hv
  -- The first step begins the teardown, so no callback ends there.
  obtain - | j := j
  · rw [run_zero, verdict?_of_asked hd] at hv
    cases hv
  have hj : j < k := Nat.lt_of_succ_lt_succ (List.mem_range.1 hj)
  have hp := pursues_run hs hn hd ha hI hm j hj
  generalize run client (j + 1) m = x at hp hv
  rw [verdict?] at hv
  split at hv
  · case h_1 n' claimed rest program hx =>
    obtain ⟨result, hresult, hpair⟩ := Option.map_eq_some_iff.1 hv
    cases hpair
    obtain ⟨-, entry, hentry, hname, memory, hmemory, hfails⟩ := hp.running _ _ _ _ hx
    exact ⟨entry, hentry, hname, memory, hmemory, hfails ▸ Program.fails_iff hresult x.memory⟩
  · cases hv

theorem destroy_reports (h₀ : m.registry.Sound) :
    ∃ report gone, m.Returns client (.report report) (m.registry.without gone) ∧
      (∀ k, k ∈ gone ↔ ReflTransGen m.registry.edges.Leads root k) ∧
      m.registry.Reported gone report.destroyed ∧
      ∀ I, client.Keeps I → I m.memory →
        m.registry.Faulted client I gone (report.failures.map (·.1)) := by
  have hc := hs.callbacks m.registry root
  obtain ⟨_, _, -, -, k, ha⟩ := tearDown_answers hd rfl hc
  obtain ⟨ran, w, r, hcourse, hend, hreport, hrun, -, hends⟩ :=
    course_of_answersAfter hd rfl hc ha
  have hsevers := hcourse.quiets.severs h₀
  refine ⟨w.report, w.visited, ⟨k, hreport ▸ ha, hrun.trans (hsevers.eq_without hend h₀)⟩,
    hsevers.mem_visited hend,
    ⟨hcourse.quiets.nodup Walk.untouched_one, fun {n} => hsevers.mem_destroyed hend n⟩,
    fun I hI hm n hsteady => ?_⟩
  have hverdict (e) (he : e ∈ ran) := by
    have hv : (e.1.1, e.2) ∈ verdicts client (k + 1) m := hends ▸ List.mem_map_of_mem he
    exact fails_of_verdict hs hn hd ha hI hm hv
  rw [hcourse.mem_failures]
  constructor
  · rintro (hnone | ⟨e, he, rfl, herror⟩)
    · cases hnone
    · obtain ⟨entry, hentry, hname, memory, hmemory, hfails⟩ := hverdict e he
      exact ⟨((hcourse.mem_ran hn h₀ hend).1 (List.mem_map_of_mem he)).2,
        entry, hentry, hname, memory, hmemory, hfails.2 herror⟩
  · rintro ⟨hvisited, entry, hentry, rfl, memory, hmemory, hfails⟩
    obtain ⟨e, he, rfl⟩ := List.mem_map.1 ((hcourse.mem_ran hn h₀ hend).2 ⟨hentry, hvisited⟩)
    obtain ⟨entry', hentry', hname, memory', hmemory', hfails'⟩ := hverdict e he
    obtain rfl := List.inj_on_of_nodup_map hn hentry' hentry hname
    have hsame := hsteady _ hentry rfl memory' memory hmemory' hmemory
    exact .inr ⟨e, he, rfl, hfails'.1 (hsame.trans hfails)⟩

end Destroy

theorem destroy_reports_after {r : Registry κ} {gone both destroyed : List Name} {n : Name}
    (hs : client.Discreet) (h₀ : r.Sound) (hn : r.disposers.names.Nodup)
    (hclosed : ∀ {x y}, x ∈ gone → r.edges.Leads x y → y ∈ gone)
    (hboth : ∀ k, k ∈ both ↔ k ∈ gone ∨ ReflTransGen r.edges.Leads n k)
    (hreported : r.Reported gone destroyed) (hr : m.registry = r.without gone)
    (hd : m.deed = .asked (.destroy n)) :
    ∃ report, m.Returns client (.report report) (r.without both) ∧
      r.Reported both (destroyed ++ report.destroyed) ∧
      ∀ I failed, client.Keeps I → I m.memory → r.Faulted client I gone failed →
        r.Faulted client I both (failed ++ report.failures.map (·.1)) := by
  have hn' : m.registry.disposers.names.Nodup := hr ▸ hn.sublist (List.filter_sublist.map _)
  obtain ⟨report, gone', hret, hgone', hreported', hfaulted⟩ :=
    destroy_reports hs hn' hd (hr ▸ h₀.without gone)
  rw [hr] at hret hgone' hreported' hfaulted
  have hunion (k : Name) : k ∈ both ↔ k ∈ gone ∨ k ∈ gone' := by
    rw [hboth, hgone']
    exact (Edges.mem_or_reached_without hclosed).symm
  rw [Registry.without_without hunion] at hret
  exact ⟨report, hret, hreported.append hunion hreported',
    fun I failed hI hm h => h.append hunion (hfaulted I hI hm)⟩

/-- Two names are torn down one after the other, in either order, also if one leads to the other.
The teardowns end, and leave the same registry: the one they found, without all that either name
leads to. Together they report the same names, each once. They also report the same names as
failing, as far as it is settled whether a callback fails by something in the memory of the client
that neither destroy callbacks nor events change. -/
theorem destroys_commute {client : Client σ (Request κ) κ} (hs : client.Discreet)
    {m m' : Machine σ (Request κ) κ} (hm : m.Reachable client) (hr : m'.registry = m.registry)
    {a b : Name} (hd : m.deed = .asked ((Request.destroy a).resolve m.registry.links))
    (hd' : m'.deed = .asked ((Request.destroy b).resolve m'.registry.links)) :
    ∃ report report' r r',
      m.Returns client (.report report) r ∧ m'.Returns client (.report report') r' ∧
      ∀ m₁ m₁' : Machine σ (Request κ) κ, m₁.registry = r → m₁'.registry = r' →
        m₁.deed = .asked ((Request.destroy b).resolve m₁.registry.links) →
        m₁'.deed = .asked ((Request.destroy a).resolve m₁'.registry.links) →
        ∃ report₁ report₁' both,
          m₁.Returns client (.report report₁) (m.registry.without both) ∧
          m₁'.Returns client (.report report₁') (m.registry.without both) ∧
          (∀ k, k ∈ both ↔
            ReflTransGen m.registry.edges.Leads (m.registry.links.canonical a) k ∨
              ReflTransGen m.registry.edges.Leads (m.registry.links.canonical b) k) ∧
          (report.destroyed ++ report₁.destroyed).Nodup ∧
          (report.destroyed ++ report₁.destroyed).Perm
            (report'.destroyed ++ report₁'.destroyed) ∧
          ∀ I, client.Keeps I → I m.memory → I m'.memory → I m₁.memory → I m₁'.memory →
            ∀ n, m.registry.Steady client I n →
              (n ∈ (report.failures ++ report₁.failures).map (·.1) ↔
                n ∈ (report'.failures ++ report₁'.failures).map (·.1)) := by
  have h₀ : m.registry.Sound := hm.relies Registry.reliable_sound hs hd
  have hn : m.registry.disposers.names.Nodup := hm.names_nodup
  obtain ⟨report, gone, hret, hgone, hreported, hfaulted⟩ := destroy_reports hs hn hd h₀
  obtain ⟨report', gone', hret', hgone', hreported', hfaulted'⟩ :=
    destroy_reports hs (hr ▸ hn) hd' (hr ▸ h₀)
  rw [hr] at hret' hgone' hreported' hfaulted'
  refine ⟨report, report', _, _, hret, hret', fun m₁ m₁' hr₁ hr₁' hd₁ hd₁' => ?_⟩
  rw [hr₁] at hd₁
  rw [hr₁'] at hd₁'
  -- The links are not touched, so both orders take the names that `a` and `b` stood for at first.
  have hboth (k : Name) : k ∈ gone ++ gone' ↔
      ReflTransGen m.registry.edges.Leads (m.registry.links.canonical a) k ∨
        ReflTransGen m.registry.edges.Leads (m.registry.links.canonical b) k := by
    rw [List.mem_append, hgone, hgone']
  obtain ⟨report₁, hret₁, hreported₁, hfaulted₁⟩ := destroy_reports_after hs h₀ hn
    (fun hx hxy => (hgone _).2 (((hgone _).1 hx).tail hxy))
    (fun k => (hboth k).trans (or_congr_left (hgone k).symm)) hreported hr₁ hd₁
  obtain ⟨report₁', hret₁', hreported₁', hfaulted₁'⟩ := destroy_reports_after hs h₀ hn
    (fun hx hxy => (hgone' _).2 (((hgone' _).1 hx).tail hxy))
    (fun k => (hboth k).trans (or_comm.trans (or_congr_left (hgone' k).symm))) hreported' hr₁' hd₁'
  refine ⟨report₁, report₁', _, hret₁, hret₁', hboth, hreported₁.nodup, ?_, ?_⟩
  · rw [List.perm_ext_iff_of_nodup hreported₁.nodup hreported₁'.nodup]
    exact fun k => hreported₁.mem_iff.trans hreported₁'.mem_iff.symm
  · intro I hI hI₀ hI₀' hI₁ hI₁' n hsteady
    have hfirst := hfaulted₁ I _ hI hI₁ (hfaulted I hI hI₀)
    have hsecond := hfaulted₁' I _ hI hI₁' (hfaulted' I hI hI₀')
    rw [List.map_append, List.map_append]
    exact (hfirst n hsteady).trans (hsecond n hsteady).symm

section Ringed

def wary : Client Bool (Request Bool) Bool where
  factory _ := return .ok ⟨0, .unit⟩
  early _ := return ⟨0, .unit⟩
  disposer heeds :=
    .access id fun stuck => .done (if heeds && stuck then .error (.raised "stuck") else .ok ())
  hear _ memory := memory

theorem wary_keeps : wary.Keeps (· = true) where
  disposer _ _ hstuck := ⟨hstuck, trivial⟩
  hear _ _ hstuck := hstuck

theorem wary_steady (r : Registry Bool) (n : Name) : r.Steady wary (· = true) n := by
  rintro entry - - memory memory' rfl rfl
  rfl

def tearing (r : Registry Bool) (n : Name) : Machine Bool (Request Bool) Bool :=
  .ofMain r true (do let _ ← .ask (.destroy n))

def ringed (n : Name) : Machine Bool (Request Bool) Bool :=
  run wary 8 (.ofMain ({} : Settings).registry true (do
    let _ ← .ask (.install "b" ⟨0, .unit⟩)
    let _ ← .ask (.addDependency "a" "b")
    let _ ← .ask (.addDependency "b" "a")
    let _ ← .ask (.addContainment "b" "c")
    let _ ← .ask (.addDependency "d" "c")
    let _ ← .ask (.onDestroy "c" true)
    let _ ← .ask (.onDestroy "d" false)
    let _ ← .ask (.link "a" "aka")
    let _ ← .ask (.destroy n)))

theorem destroys_commute_ringed :
    wary.Discreet ∧ (ringed "d").Reachable wary ∧
      (ringed "aka").registry = (ringed "d").registry ∧
      (ringed "d").deed = .asked ((Request.destroy "d").resolve (ringed "d").registry.links) ∧
      (ringed "aka").deed = .asked ((Request.destroy "aka").resolve (ringed "aka").registry.links) ∧
      ∃ report report' r r' report₁ report₁' left,
        (ringed "d").Returns wary (.report report) r ∧
        (ringed "aka").Returns wary (.report report') r' ∧
        (tearing r "aka").Returns wary (.report report₁) left ∧
        (tearing r' "d").Returns wary (.report report₁') left ∧
        (report.destroyed ++ report₁.destroyed).Perm (report'.destroyed ++ report₁'.destroyed) ∧
        ∀ n, n ∈ (report.failures ++ report₁.failures).map (·.1) ↔
          n ∈ (report'.failures ++ report₁'.failures).map (·.1) := by
  have hs : wary.Discreet := fun _ _ => trivial
  have hm : (ringed "d").Reachable wary := ⟨{}, true, _, 8, rfl⟩
  have hr : (ringed "aka").registry = (ringed "d").registry := rfl
  have hd : (ringed "d").deed =
    .asked ((Request.destroy "d").resolve (ringed "d").registry.links) := rfl
  have hd' : (ringed "aka").deed =
    .asked ((Request.destroy "aka").resolve (ringed "aka").registry.links) := rfl
  obtain ⟨report, report', r, r', hret, hret', hnext⟩ := destroys_commute hs hm hr hd hd'
  obtain ⟨report₁, report₁', both, hret₁, hret₁', -, -, hperm, hfailed⟩ :=
    hnext (tearing r "aka") (tearing r' "d") rfl rfl rfl rfl
  exact ⟨hs, hm, hr, hd, hd', report, report', r, r', report₁, report₁', _, hret, hret', hret₁,
    hret₁', hperm, fun n => hfailed _ wary_keeps rfl rfl rfl rfl n (wary_steady _ n)⟩

end Ringed

section Relying

/-- One destroy callback leaves word in the memory, and the other fails if there is none. -/
def relying : Client Bool (Request Bool) Bool where
  factory _ := return .ok ⟨0, .unit⟩
  early _ := return ⟨0, .unit⟩
  disposer leaves :=
    if leaves then .access (fun _ => true) fun _ => .done (.ok ())
    else .access id fun left => .done (if left then .ok () else .error (.raised "not yet"))
  hear _ memory := memory

def partners (first second : Name) : Machine Bool (Request Bool) Bool :=
  run relying 2 (.ofMain ({} : Settings).registry false (do
    let _ ← .ask (.onDestroy "a" true)
    let _ ← .ask (.onDestroy "b" false)
    let _ ← .ask (.destroy first)
    let _ ← .ask (.destroy second)))

/-- The same names are torn down from the same registry with the same memory, and a callback fails
in one of the orders only. -/
theorem fails_in_one_order :
    relying.Discreet ∧ (partners "a" "b").Reachable relying ∧
      (partners "b" "a").Reachable relying ∧
      (partners "b" "a").registry = (partners "a" "b").registry ∧
      (partners "b" "a").memory = (partners "a" "b").memory ∧
      ((partners "a" "b").deed = .asked (.destroy "a") ∧
        (partners "a" "b").AnswersAfter relying 7 (.report ⟨["a"], []⟩) ∧
        (run relying 8 (partners "a" "b")).deed = .asked (.destroy "b") ∧
        (run relying 8 (partners "a" "b")).AnswersAfter relying 7 (.report ⟨["b"], []⟩)) ∧
      (partners "b" "a").deed = .asked (.destroy "b") ∧
        (partners "b" "a").AnswersAfter relying 7
          (.report ⟨["b"], [("b", .raised "not yet")]⟩) ∧
        (run relying 8 (partners "b" "a")).deed = .asked (.destroy "a") ∧
        (run relying 8 (partners "b" "a")).AnswersAfter relying 7 (.report ⟨["a"], []⟩) := by
  have hs : relying.Discreet := by
    intro leaves
    cases leaves <;> exact fun _ => trivial
  refine ⟨hs, ⟨{}, false, _, 2, rfl⟩, ⟨{}, false, _, 2, rfl⟩, rfl, rfl, ?_, ?_⟩
  · exact ⟨rfl, ⟨rfl, by decide⟩, rfl, ⟨rfl, by decide⟩⟩
  · exact ⟨rfl, ⟨rfl, by decide⟩, rfl, ⟨rfl, by decide⟩⟩

end Relying

end Machine

end ObjectRegistry
