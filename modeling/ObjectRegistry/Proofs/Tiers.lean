import ObjectRegistry.Proofs.Calls
import ObjectRegistry.Proofs.Obtain

namespace ObjectRegistry

variable {σ ρ κ : Type}

namespace Deed

def showed? : Deed κ → Option Name
  | showed n _ _ => some n
  | _ => none

theorem showed?_eq_some {d : Deed κ} {n : Name} (h : d.showed? = some n) :
    ∃ purpose object, d = .showed n purpose object := by
  cases d with
  | showed k purpose object =>
    cases h
    exact ⟨purpose, object, rfl⟩
  | _ => cases h

end Deed

/-- What a deed may do to the store. -/
inductive Refiles (s : Store κ) : Deed κ → Store κ → Prop where
  | kept {d : Deed κ} : Refiles s d s
  | installed {n : Name} {h : Handle} (hf : s.finished[n]? = none) :
    Refiles s (.asked (.store (.install n h))) (s.finish n h)
  | built {n : Name} {ownsWindow : Bool} {h : Handle} :
    Refiles s (.built n ownsWindow (.ok h)) (s.finish n h)
  | deferred {n : Name} {early : κ} (hf : s.finished[n]? = none) :
    Refiles s (.asked (.defer n early)) (s.defer n early)
  | taken {op : Op κ} {n : Name} : Refiles s (.asked op) (s.takePending n)
  | showed {n : Name} {purpose : Purpose} {h : Handle} :
    Refiles s (.showed n purpose h) (s.expose n h)
  | dropped {d : Deed κ} {n : Name} : Refiles s d (s.drop n)
  | discarded {d : Deed κ} {n : Name} : Refiles s d (s.discard n)
  | cleared {d : Deed κ} : Refiles s d s.clear
  | closed {d : Deed κ} : Refiles s d s.close

namespace Registry

variable (r : Registry κ)

theorem refiles_install (n : Name) (h : Handle) :
    Refiles r.store (.asked (.store (.install n h)))
      (Store.Op.update r.store (.install n h)) := by
  simp only [Store.Op.update, Store.install]
  split
  · exact .kept
  · split
    · case h_1 hf => exact .installed hf
    · split <;> exact .kept

theorem refiles_found {n : Name} {purpose : Purpose} {op : Op κ} {o : Outset κ}
    (ho : Finds r n purpose o) : Refiles r.store (.asked op) o.registry.store := by
  cases ho with
  | found hf => exact .kept
  | pending hf hu he hp => exact .taken
  | absent hf hu => exact .kept

theorem refiles_obtained {n : Name} {factory : κ} {op : Op κ} {o : Outset κ}
    (ho : Obtains r n factory o) : Refiles r.store (.asked op) o.registry.store := by
  cases ho with
  | nameless hn => exact .kept
  | finished hn hf => exact .kept
  | closed hn hf hc => exact .kept
  | early hn hf hc hu he => exact .kept
  | pending hn hf hc hu he hp => exact .taken
  | circular hn hf hc hu he hp => exact .kept
  | fresh hn hf hc hu => exact .kept

theorem refiles_asked (op : Op κ) : Refiles r.store (.asked op) (r.start op).registry.store := by
  cases op with
  | links op | marks op | edges op | hasDisposer k | disposerNames | describe part | destroy k =>
    exact .kept
  | destroyAll => exact .closed
  | find k => exact r.refiles_found (r.finds k .find)
  | findAs given k kind => exact r.refiles_found (r.finds k (.findAs given kind))
  | obtain k factory => exact r.refiles_obtained (r.obtains k factory)
  | defer k early =>
    obtain ⟨a, ha⟩ | ⟨hf, -, ha⟩ := r.defer_inv k early
    · rw [start, ha]
      exact .kept
    · rw [start, ha]
      exact .deferred hf
  | onDestroy k callback =>
    obtain ⟨a, disposers, ha⟩ := r.onDestroy_inv k callback
    rw [start, ha]
    exact .kept
  | store op =>
    cases op with
    | holds k | size | names | isClosed => exact .kept
    | close => exact .closed
    | clear => exact .cleared
    | drop k => exact .dropped
    | install k h => exact r.refiles_install k h

theorem refiles_turned (walk : Walk κ) :
    Refiles r.store (.turned walk) ((walk.turn r).registry r).store := by
  obtain ⟨tasks, visited, report⟩ := walk
  cases tasks with
  | nil => exact .kept
  | cons task rest =>
    cases task with
    | start k | contained k | forget k => exact .kept
    | dispose k callback claimed => cases callback <;> exact .kept
    | sweep => exact .cleared
    | enter k =>
      simp only [Walk.turn]
      split
      · exact .kept
      · exact .dropped

theorem refiles (d : Deed κ) : Refiles r.store d (r.after d).store := by
  cases d with
  | idle | withheld | disposed => exact .kept
  | asked op => exact r.refiles_asked op
  | turned walk => exact r.refiles_turned walk
  | showed k purpose h => exact .showed
  | brokeOff k ownsWindow p => exact .discarded
  | built k ownsWindow outcome =>
    cases outcome with
    | error fault => exact .discarded
    | ok h => exact .built

end Registry

namespace Store

variable {s s' : Store κ} {n : Name} {d : Deed κ}

structure Single (s : Store κ) (n : Name) : Prop where
  finished_early : s.finished[n]? = none ∨ s.early[n]? = none
  finished_pending : s.finished[n]? = none ∨ s.pending[n]? = none
  early_pending : s.early[n]? = none ∨ s.pending[n]? = none

theorem single_clear : s.clear.Single n where
  finished_early := .inl (NameMap.getElem?_empty n)
  finished_pending := .inl (NameMap.getElem?_empty n)
  early_pending := .inl (NameMap.getElem?_empty n)

theorem single_expose (h : Handle) :
    (s.expose n h).Single n ↔ s.finished[n]? = none ∧ s.pending[n]? = none := by
  have he : (s.expose n h).early[n]? = some h := by
    rw [expose, NameMap.getElem?_insert, if_pos rfl]
  constructor
  · intro hs
    refine ⟨hs.finished_early.resolve_right ?_, hs.early_pending.resolve_left ?_⟩
    all_goals
      rw [he]
      exact Option.some_ne_none h
  · rintro ⟨hf, hp⟩
    exact ⟨.inl hf, .inl hf, .inr hp⟩

theorem Single.mono (hs : s.Single n) (hf : s.finished[n]? = none → s'.finished[n]? = none)
    (he : s.early[n]? = none → s'.early[n]? = none)
    (hp : s.pending[n]? = none → s'.pending[n]? = none) : s'.Single n where
  finished_early := hs.finished_early.imp hf he
  finished_pending := hs.finished_pending.imp hf hp
  early_pending := hs.early_pending.imp he hp

theorem getElem?_erase_none {α : Type} {t : NameMap α} (k : Name) (h : t[n]? = none) :
    (t.erase k)[n]? = none := by
  rw [NameMap.getElem?_erase, h, ite_self]

theorem getElem?_insert_none {α : Type} {t : NameMap α} {k : Name} {v : α} (hk : k ≠ n)
    (h : t[n]? = none) : (t.insert k v)[n]? = none := by
  rw [NameMap.getElem?_insert, if_neg hk, h]

theorem Single.finish (hs : s.Single n) (k : Name) (h : Handle) : (s.finish k h).Single n := by
  by_cases hk : k = n
  · constructor <;>
      simp only [Store.finish, file, NameMap.getElem?_insert, NameMap.getElem?_erase, hk,
        ↓reduceIte, or_true]
  · exact hs.mono (getElem?_insert_none hk) (getElem?_erase_none k) (getElem?_erase_none k)

theorem Single.defer (hs : s.Single n) (k : Name) (early : κ) (hf : s.finished[k]? = none) :
    (s.defer k early).Single n := by
  by_cases hk : k = n
  · subst hk
    have he : (s.defer k early).early[k]? = none := by
      simp only [Store.defer, file, NameMap.getElem?_erase, ↓reduceIte]
    exact ⟨.inl hf, .inl hf, .inl he⟩
  · exact hs.mono id (getElem?_erase_none k) (getElem?_insert_none hk)

/-- A deed puts the name into a second tier only if it enters an early object beside what has been
filed under the name in the meantime. -/
theorem Single.refiles (hs : s.Single n) (h : Refiles s d s')
    (hd : ∀ purpose object, d = .showed n purpose object →
      s.finished[n]? = none ∧ s.pending[n]? = none) : s'.Single n := by
  cases h with
  | kept => exact hs
  | closed => exact hs.mono id id id
  | @installed k object hf => exact hs.finish k object
  | @built k ownsWindow object => exact hs.finish k object
  | @deferred k early hf => exact hs.defer k early hf
  | @taken op k => exact hs.mono id id (getElem?_erase_none k)
  | @dropped d k =>
    exact hs.mono (getElem?_erase_none k) (getElem?_erase_none k) (getElem?_erase_none k)
  | @discarded d k => exact hs.mono id (getElem?_erase_none k) (getElem?_erase_none k)
  | cleared => exact single_clear
  | @showed k purpose object =>
    by_cases hk : k = n
    · subst hk
      exact (single_expose object).2 (hd purpose object rfl)
    · exact hs.mono id (getElem?_insert_none hk) id

end Store

namespace Machine

variable [Language ρ κ] {client : Client σ ρ κ} {m m' : Machine σ ρ κ} {n : Name}

/-- The callback that makes the early object of `n` ends while `n` is filed as something else. -/
def Refiled (m : Machine σ ρ κ) (n : Name) : Prop :=
  m.deed.showed? = some n ∧
    (m.registry.store.finished[n]?.isSome ∨ m.registry.store.pending[n]?.isSome)

instance (m : Machine σ ρ κ) (n : Name) : Decidable (m.Refiled n) :=
  inferInstanceAs (Decidable (_ ∧ _))

theorem not_refiled_iff :
    ¬m.Refiled n ↔ ∀ purpose object, m.deed = .showed n purpose object →
      m.registry.store.finished[n]? = none ∧ m.registry.store.pending[n]? = none := by
  simp only [Refiled, not_and, not_or, Option.not_isSome_iff_eq_none]
  constructor
  · intro h purpose object hd
    exact h (by rw [hd, Deed.showed?])
  · intro h hd
    obtain ⟨purpose, object, hd⟩ := Deed.showed?_eq_some hd
    exact h purpose object hd

theorem single_run {settings : Settings} {memory : σ} {main : Program σ ρ Unit} {k : Nat}
    (hr : ∀ j < k, ¬(run client j (.ofMain settings.registry memory main)).Refiled n) :
    (run client k (.ofMain settings.registry memory main)).registry.store.Single n := by
  apply run_keeps (P := fun m => m.registry.store.Single n)
  · exact Store.single_clear (s := {})
  · intro j hj m' hs h
    rw [registry_step h]
    exact hs.refiles (Registry.refiles _ _) (not_refiled_iff.1 (hr j hj))

theorem found_of_finished {k : Nat} {x : Option Handle} {o : Handle}
    (hd : m.deed = .asked (.find n)) (ha : m.AnswersAfter client k (.object x))
    (hr : ¬(run client k m).Refiled n)
    (hf : (run client (k + 1) m).registry.store.finished[n]? = some o) : x = some o := by
  have hfind := m.registry.finds n .find
  have hstart : m.registry.start (.find n) = m.registry.find n .find := rfl
  obtain ⟨m', hs, -, hreply⟩ := gives_inv ha.1
  rw [run_succ, hs, Option.getD_some, registry_step hs] at hf
  generalize m.registry.find n .find = outset at hfind hstart
  cases hfind with
  | absent hnone hu =>
    obtain ⟨rfl, -⟩ := AnswersAfter.unique ha (answersAfter_of_start hd hstart)
    rw [run_zero, hd, Registry.after, hstart, Outset.registry, hnone] at hf
    cases hf
  | @found h hfound =>
    obtain ⟨rfl, hx⟩ := AnswersAfter.unique ha (answersAfter_of_start hd hstart)
    cases hx
    rw [run_zero, hd, Registry.after, hstart, Outset.registry] at hf
    obtain hfin | ⟨hnone, -⟩ := hfound
    · rw [← hfin, hf]
    · rw [hnone] at hf
      cases hf
  | @pending early hnone hu he hp =>
    have hl : m.registry.launch? m.deed = some (.expose n .find, early) := by
      rw [hd, Registry.launch?, hstart, Outset.launch?]
    obtain ⟨hends, -⟩ := ends_of_answersAfter Registry.reply?_of_ends_expose hl ha
    obtain ⟨object, hshow⟩ | ⟨p, hshow⟩ := Deed.ends?_expose hends
    · -- The early object is entered where nothing is finished, so nothing is finished after it.
      have hnone := (not_refiled_iff.1 hr _ _ hshow).1
      rw [hshow] at hf
      change (run client k m).registry.store.finished[n]? = some o at hf
      rw [hnone] at hf
      cases hf
    · rw [hshow] at hreply
      cases hreply

/-- A name is in one tier at most, and what is found of it is its finished object if it has one, as
long as it is not filed while the callback runs that makes its early object. The first time that
it is, it ends up in two tiers. -/
theorem single_until_refiled {settings : Settings} {memory : σ} {main : Program σ ρ Unit} {k : Nat}
    (hr : ∀ j < k, ¬(run client j (.ofMain settings.registry memory main)).Refiled n) :
    let m := run client k (.ofMain settings.registry memory main)
    m.registry.store.Single n ∧
      (∀ j i x o, j + i < k →
        (run client j (.ofMain settings.registry memory main)).deed = .asked (.find n) →
        (run client j (.ofMain settings.registry memory main)).AnswersAfter client i (.object x) →
        (run client (j + i + 1) (.ofMain settings.registry memory main)).registry.store.finished[n]?
            = some o →
        x = some o) ∧
      ∀ m', m.step client = some m' → (m.Refiled n ↔ ¬m'.registry.store.Single n) := by
  intro m
  have hs : m.registry.store.Single n := single_run hr
  refine ⟨hs, fun j i x o hk hd ha hf => ?_, fun m' h => ?_⟩
  · refine found_of_finished hd ha ?_ ?_
    · rw [← run_add]
      exact hr (j + i) hk
    · rwa [← run_add]
  · rw [registry_step h]
    constructor
    · intro hm hs'
      obtain ⟨purpose, object, hshow⟩ := Deed.showed?_eq_some hm.1
      rw [hshow] at hs'
      refine absurd hm (not_refiled_iff.2 fun _ _ _ => ?_)
      exact (Store.single_expose object).1 hs'
    · intro hs'
      refine Classical.byContradiction fun hm => hs' ?_
      exact hs.refiles (Registry.refiles _ _) (not_refiled_iff.1 hm)

def forward : Client Unit (Request Bool) Bool where
  factory files := do
    let _ ← .ask (.defer "n" files)
    let _ ← .ask (.find "n")
    return .ok ⟨2, .unit⟩
  early files := do
    if files then
      let _ ← Program.ask (.install "n" ⟨0, .unit⟩)
    return ⟨1, .unit⟩
  disposer _ := return .ok ()
  hear _ memory := memory

def seeking (files : Bool) : Machine Unit (Request Bool) Bool :=
  .ofMain ({} : Settings).registry () (do
    let _ ← .ask (.obtain "n" files))

theorem single_until_refiled_forward :
    (∀ j < 4, ¬(run forward j (seeking false)).Refiled "n") ∧
      (run forward 4 (seeking false)).registry.store.early["n"]? = some ⟨1, .unit⟩ ∧
      (run forward 4 (seeking false)).registry.store.Single "n" := by
  have hr : ∀ j < 4, ¬(run forward j (seeking false)).Refiled "n" := by decide
  exact ⟨hr, by decide, (single_until_refiled hr).1⟩

/-- A name is filed as finished and as early, and a search for it returns the early object although
the finished one was there first. -/
theorem filed_in_two_tiers :
    (run forward 2 (seeking true)).deed = .asked (.find "n") ∧
      (run forward 2 (seeking true)).AnswersAfter forward 2 (.object (some ⟨1, .unit⟩)) ∧
      (run forward 5 (seeking true)).registry.store.finished["n"]? = some ⟨0, .unit⟩ ∧
      (run forward 5 (seeking true)).registry.store.early["n"]? = some ⟨1, .unit⟩ ∧
      ¬(run forward 5 (seeking true)).registry.store.Single "n" := by
  have hearly : (run forward 5 (seeking true)).registry.store.early["n"]? = some ⟨1, .unit⟩ := by
    decide
  have hfinished :
      (run forward 5 (seeking true)).registry.store.finished["n"]? = some ⟨0, .unit⟩ := by
    decide
  refine ⟨rfl, ⟨rfl, by decide⟩, hfinished, hearly, fun hs => ?_⟩
  obtain h | h := hs.finished_early
  · rw [hfinished] at h
    cases h
  · rw [hearly] at h
    cases h

end Machine

end ObjectRegistry
