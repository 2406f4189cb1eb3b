import ObjectRegistry.Proofs.Calls
import ObjectRegistry.Proofs.Finished

namespace ObjectRegistry

variable {σ κ : Type}

namespace Store

variable {s s' : Store κ} {n : Name} {names : List Name}

def Confined (s : Store κ) (names : List Name) : Prop :=
  ∀ n, s.early[n]? ≠ none ∨ s.pending[n]? ≠ none → n ∈ names

theorem Confined.cons (h : s.Confined names) : s.Confined (n :: names) :=
  fun k hk => List.mem_cons_of_mem n (h k hk)

theorem Confined.erase (h : s.Confined (n :: names)) (he : s'.early = s.early.erase n)
    (hp : s'.pending = s.pending.erase n) : s'.Confined names := by
  intro k hk
  rw [he, hp, NameMap.getElem?_erase, NameMap.getElem?_erase] at hk
  by_cases hnk : n = k
  · rw [if_pos hnk, if_pos hnk] at hk
    cases hk <;> contradiction
  · rw [if_neg hnk, if_neg hnk] at hk
    obtain rfl | hk := List.mem_cons.1 (h k hk)
    · exact absurd rfl hnk
    · exact hk

theorem Confined.defer {early : κ} (h : s.Confined names) (hn : n ∈ names) :
    (s.defer n early).Confined names := by
  intro k hk
  by_cases hnk : n = k
  · exact hnk ▸ hn
  · apply h k
    simpa only [Store.defer, file, NameMap.getElem?_insert, NameMap.getElem?_erase, hnk,
      ↓reduceIte] using hk

theorem Confined.expose {object : Handle} (h : s.Confined names) (hn : n ∈ names) :
    (s.expose n object).Confined names := by
  intro k hk
  by_cases hnk : n = k
  · exact hnk ▸ hn
  · apply h k
    simpa only [Store.expose, NameMap.getElem?_insert, hnk, ↓reduceIte] using hk

theorem Confined.takePending (h : s.Confined names) : (s.takePending n).Confined names := by
  intro k hk
  apply h k
  obtain he | hp := hk
  · exact .inl he
  · right
    intro hnone
    apply hp
    simp only [Store.takePending, NameMap.getElem?_erase, hnone, ite_self]

theorem Confined.clear : s.clear.Confined names := by
  intro k hk
  simp only [Store.clear, NameMap.getElem?_empty, ne_eq, not_true_eq_false, or_self] at hk

theorem Confined.update (h : s.Confined names) (op : Store.Op) :
    (op.update s).Confined names := by
  cases op with
  | holds | size | names | isClosed | close => exact h
  | clear => exact Confined.clear
  | drop k => exact h.cons.erase rfl rfl
  | install k object =>
    simp only [Op.update, install]
    split
    · exact h
    · split
      · exact h.cons.erase rfl rfl
      · split <;> exact h

theorem Confined.empty (h : s.Confined []) : s.early = ∅ ∧ s.pending = ∅ := by
  constructor
  all_goals
    apply Std.ExtTreeMap.ext_getElem?
    intro k
    rw [NameMap.getElem?_empty]
  · cases he : s.early[k]? with
    | none => rfl
    | some object => cases h k (.inl (by rw [he]; exact Option.some_ne_none object))
  · cases hp : s.pending[k]? with
    | none => rfl
    | some callback => cases h k (.inr (by rw [hp]; exact Option.some_ne_none callback))

end Store

/-- What a duty may be, given the constructions below it. -/
def Duty.Fits (below : List Name) : Duty κ → Prop
  | .construct n ownsWindow => n ∉ below ∧ ownsWindow = below.isEmpty
  | .expose n _ => n ∈ below
  | .main | .dispose .. => True

def Nested : List (Duty κ) → Prop
  | [] => True
  | duty :: below => duty.Fits (below.filterMap Duty.making?) ∧ Nested below

theorem Nested.nodup {duties : List (Duty κ)} (h : Nested duties) :
    (duties.filterMap Duty.making?).Nodup := by
  induction duties with
  | nil => exact List.nodup_nil
  | cons duty below ih =>
    cases duty with
    | construct n ownsWindow => exact List.nodup_cons.2 ⟨h.1.1, ih h.2⟩
    | main | expose n purpose | dispose n claimed rest => exact ih h.2

def Op.keepsMarks : Op κ → Bool
  | .marks op =>
    match op with
    | .enter _ | .leave _ | .track _ false | .openWindow | .closeWindow => false
    | _ => true
  | _ => true

def Deed.keepsMarks : Deed κ → Bool
  | .asked op => op.keepsMarks
  | _ => true

namespace Registry

variable {r r' : Registry κ} {duties below : List (Duty κ)} {n : Name}

/-- The registry accounts for the duties in progress. -/
structure Nests (r : Registry κ) (duties : List (Duty κ)) : Prop where
  exempt : r.marks.exempt = []
  underway : r.marks.underway = duties.filterMap Duty.making?
  window : r.marks.window.isSome = !r.marks.underway.isEmpty
  confined : r.store.Confined r.marks.underway
  nested : Nested duties

namespace Nests

theorem isUnderway (h : Nests r duties) :
    r.marks.isUnderway n = true ↔ n ∈ duties.filterMap Duty.making? := by
  rw [← h.underway]
  simp only [Marks.isUnderway, Marks.isMarked, h.exempt, List.not_mem_nil, not_false_eq_true,
    decide_true, Bool.true_and, decide_eq_true_eq]

theorem store (h : Nests r duties) (hm : r'.marks = r.marks)
    (hs : r'.store.Confined r.marks.underway) : Nests r' duties where
  exempt := by rw [hm, h.exempt]
  underway := by rw [hm, h.underway]
  window := by rw [hm, h.window]
  confined := by rw [hm]; exact hs
  nested := h.nested

theorem marks (h : Nests r duties) {op : Marks.Op} (hop : (Op.marks op : Op κ).keepsMarks = true) :
    Nests { r with marks := op.update r.marks } duties := by
  cases op with
  | isUnderway k | isMarked k | size | isEmpty | describe => exact h
  | enter k | leave k | openWindow | closeWindow => cases hop
  | note fault =>
    refine ⟨h.exempt, h.underway, ?_, h.confined, h.nested⟩
    simp only [Marks.Op.update, Marks.note, Option.isSome_map]
    exact h.window
  | track k tracked =>
    cases tracked with
    | false => cases hop
    | true =>
      refine ⟨?_, h.underway, h.window, h.confined, h.nested⟩
      simp only [Marks.Op.update, Marks.track, h.exempt, ↓reduceIte, List.erase_nil]

theorem begun (h : Nests r duties) (hu : r.marks.isUnderway n = false) :
    Nests (r.begun n) (.construct n r.marks.window.isNone :: duties) := by
  have hn : n ∉ duties.filterMap Duty.making? := by
    intro hn
    rw [h.isUnderway.2 hn] at hu
    cases hu
  have hb : (r.begun n).marks.underway = n :: r.marks.underway := by
    simp only [Registry.begun, h.exempt, List.not_mem_nil, ↓reduceIte]
  refine ⟨h.exempt, ?_, ?_, ?_, ⟨hn, ?_⟩, h.nested⟩
  · rw [hb, h.underway]
    rfl
  · rw [hb]
    rfl
  · rw [hb]
    exact h.confined.cons
  · rw [← h.underway, ← Option.not_isSome, h.window, Bool.not_not]

theorem takePending (h : Nests r duties) (hu : r.marks.isUnderway n = true) (purpose : Purpose) :
    Nests { r with store := r.store.takePending n } (.expose n purpose :: duties) where
  exempt := h.exempt
  underway := h.underway
  window := h.window
  confined := h.confined.takePending
  nested := ⟨h.isUnderway.1 hu, h.nested⟩

theorem found (h : Nests r duties) {purpose : Purpose} {o : Outset κ} (ho : Finds r n purpose o) :
    Nests o.registry ((o.launch?.map (·.1)).toList ++ duties) := by
  cases ho with
  | found hf => exact h
  | absent hf hu => exact h
  | pending hf hu he hp => exact h.takePending hu purpose

theorem obtained (h : Nests r duties) {factory : κ} {o : Outset κ} (ho : Obtains r n factory o) :
    Nests o.registry ((o.launch?.map (·.1)).toList ++ duties) := by
  cases ho with
  | nameless hn => exact h
  | finished hn hf => exact h
  | closed hn hf hc => exact h
  | early hn hf hc hu he => exact h
  | circular hn hf hc hu he hp => exact h
  | fresh hn hf hc hu => exact h.begun hu
  | pending hn hf hc hu he hp => exact h.takePending hu .obtain

theorem deferred (h : Nests r duties) (early : κ) :
    Nests (r.defer n early).registry (((r.defer n early).launch?.map (·.1)).toList ++ duties) := by
  obtain ⟨a, ha⟩ | ⟨-, hu, ha⟩ := r.defer_inv n early
  · rw [ha]
    exact h
  · rw [ha]
    refine h.store rfl (h.confined.defer ?_)
    rw [h.underway]
    exact h.isUnderway.1 hu

theorem asked (h : Nests r duties) {op : Op κ} (hop : op.keepsMarks = true) :
    Nests (r.start op).registry (((r.start op).launch?.map (·.1)).toList ++ duties) := by
  cases op with
  | hasDisposer k | disposerNames | describe part | destroy k => exact h
  | links op | edges op | destroyAll => exact h.store rfl h.confined
  | marks op => exact h.marks hop
  | store op => exact h.store rfl (h.confined.update op)
  | find k => exact h.found (r.finds k .find)
  | findAs given k kind => exact h.found (r.finds k (.findAs given kind))
  | obtain k factory => exact h.obtained (r.obtains k factory)
  | defer k early => exact h.deferred early
  | onDestroy k callback =>
    obtain ⟨a, disposers, ha⟩ := r.onDestroy_inv k callback
    rw [start, ha]
    exact h.store rfl h.confined

theorem turned (h : Nests r duties) (walk : Walk κ) :
    Nests ((walk.turn r).registry r) (((r.launch? (.turned walk)).map (·.1)).toList ++ duties) := by
  obtain ⟨tasks, visited, report⟩ := walk
  cases tasks with
  | nil => exact h
  | cons task rest =>
    cases task with
    | start k => exact h
    | contained k | forget k => exact h.store rfl h.confined
    | sweep => exact h.store rfl Store.Confined.clear
    | dispose k callback claimed =>
      cases callback with
      | none => exact h
      | some callback => exact ⟨h.exempt, h.underway, h.window, h.confined, trivial, h.nested⟩
    | enter k =>
      rw [launch?]
      simp only [Walk.turn]
      split
      · exact h
      · exact h.store rfl (h.confined.cons.erase rfl rfl)

theorem released {ownsWindow : Bool} {store : Store κ}
    (h : Nests r (.construct n ownsWindow :: below))
    (hs : store.Confined (below.filterMap Duty.making?)) :
    Nests ({ r with store }.release n ownsWindow) below := by
  have hu : r.marks.underway = n :: below.filterMap Duty.making? := h.underway
  have ho : ownsWindow = (below.filterMap Duty.making?).isEmpty := h.nested.1.2
  have hleave (marks : Marks) (he : marks.exempt = [])
      (hm : marks.underway = n :: below.filterMap Duty.making?) :
      marks.leave n = { marks with underway := below.filterMap Duty.making? } := by
    rw [Marks.leave, he, if_neg List.not_mem_nil, hm, List.erase_cons_head]
  cases ownsWindow with
  | true =>
    have hr : ({ r with store }.release n true).marks =
        { r.marks.closeWindow with underway := below.filterMap Duty.making? } :=
      hleave r.marks.closeWindow h.exempt hu
    refine ⟨by rw [hr]; exact h.exempt, by rw [hr], ?_, by rw [hr]; exact hs, h.nested.2⟩
    rw [hr]
    simp only [Marks.closeWindow, Option.isSome_none, ← ho, Bool.not_true]
  | false =>
    have hr : ({ r with store }.release n false).marks =
        { r.marks with underway := below.filterMap Duty.making? } := hleave r.marks h.exempt hu
    refine ⟨by rw [hr]; exact h.exempt, by rw [hr], ?_, by rw [hr]; exact hs, h.nested.2⟩
    rw [hr, ← ho]
    rw [h.window, hu]
    rfl

theorem abandoned {ownsWindow : Bool} (h : Nests r (.construct n ownsWindow :: below)) :
    Nests (r.abandon n ownsWindow) below := by
  apply h.released
  have hc := h.confined
  rw [h.underway] at hc
  exact hc.erase rfl rfl

theorem completed {ownsWindow : Bool} (h : Nests r (.construct n ownsWindow :: below))
    (outcome : Except Fault Handle) : Nests (r.complete n ownsWindow outcome).2.1 below := by
  cases outcome with
  | error fault => exact h.abandoned
  | ok object =>
    apply h.released
    have hc := h.confined
    rw [h.underway] at hc
    exact hc.erase rfl rfl

theorem exposed {purpose : Purpose} (h : Nests r (.expose n purpose :: below)) (object : Handle) :
    Nests (r.expose n object) below where
  exempt := h.exempt
  underway := h.underway
  window := h.window
  confined := h.confined.expose (by rw [h.underway]; exact h.nested.1)
  nested := h.nested.2

theorem ended {duty : Duty κ} (h : Nests r (duty :: below)) (hd : duty.making? = none) :
    Nests r below where
  exempt := h.exempt
  underway := by rw [h.underway, List.filterMap_cons_none hd]
  window := h.window
  confined := h.confined
  nested := h.nested.2

theorem after (h : Nests r duties) {d : Deed κ} (hk : d.keepsMarks = true)
    (hd : d.ends?.toList ++ below = ((r.launch? d).map (·.1)).toList ++ duties) :
    Nests (r.after d) below := by
  cases d with
  | idle =>
    obtain rfl : below = duties := hd
    exact h
  | asked op =>
    obtain rfl : below = _ := hd
    exact h.asked hk
  | turned walk =>
    obtain rfl : below = _ := hd
    exact h.turned walk
  | built n ownsWindow outcome =>
    obtain rfl : _ = duties := hd
    exact h.completed outcome
  | brokeOff n ownsWindow p =>
    obtain rfl : _ = duties := hd
    exact h.abandoned
  | showed n purpose object =>
    obtain rfl : _ = duties := hd
    exact h.exposed object
  | withheld n purpose p | disposed n claimed rest =>
    obtain rfl : _ = duties := hd
    exact h.ended rfl

theorem start (settings : Settings) : Nests (settings.registry : Registry κ) [.main] where
  exempt := rfl
  underway := rfl
  window := rfl
  confined := Store.Confined.clear (s := {})
  nested := ⟨trivial, trivial⟩

end Nests

end Registry

def Deed.exempts : Deed κ → Bool
  | .asked (.marks (.track _ false)) => true
  | _ => false

theorem Request.keepsMarks {links : Links} {request : Request κ}
    (h : (Deed.asked (request.resolve links)).exempts = false) :
    (request.resolve links).keepsMarks = true := by
  cases request with
  | track n tracked =>
    cases tracked with
    | false => cases h
    | true => rfl
  | _ => rfl

namespace Machine

variable {client : Client σ (Request κ) κ} {m m' : Machine σ (Request κ) κ} {n : Name}

theorem keepsMarks_of_request (h : m.deed.exempts = false) : m.deed.keepsMarks = true := by
  obtain ⟨r, memory, activity, callers⟩ := m
  cases activity with
  | tearDown walk => rfl
  | code duty program =>
    cases program with
    | done result => cases duty <;> rfl
    | panic p => cases duty <;> rfl
    | access change next => cases duty <;> rfl
    | call request next =>
      rw [deed_call] at h ⊢
      exact Request.keepsMarks h

theorem nests_run {settings : Settings} {memory : σ} {main : Program σ (Request κ) Unit} {k : Nat}
    (ht : ∀ d ∈ deeds client k (.ofMain settings.registry memory main), d.exempts = false) :
    (run client k (.ofMain settings.registry memory main)).registry.Nests
      (run client k (.ofMain settings.registry memory main)).duties := by
  apply run_keeps (P := fun m => m.registry.Nests m.duties)
  · exact Registry.Nests.start settings
  · intro j hj m' hn h
    rw [registry_step h]
    exact hn.after (keepsMarks_of_request (ht _ (deed_mem_deeds hj h))) (duties_step h)

theorem circular_of_answers {factory : κ} (hd : m.deed = .asked (.obtain n factory))
    (ha : m.Answers client (.made (.error (.circularCreation n)))) :
    m.registry.marks.isUnderway n = true ∧ m.registry.store.finished[n]? = none ∧
      m.registry.store.early[n]? = none ∧ m.registry.store.pending[n]? = none := by
  have ho := m.registry.obtains n factory
  have hstart : m.registry.start (.obtain n factory) = m.registry.obtain n factory := rfl
  generalize m.registry.obtain n factory = o at ho hstart
  cases ho with
  | circular hn hf hc hu he hp => exact ⟨hu, hf, he, hp⟩
  | nameless hn => cases (answers_of_start hd hstart).unique ha
  | finished hn hf => cases (answers_of_start hd hstart).unique ha
  | closed hn hf hc => cases (answers_of_start hd hstart).unique ha
  | early hn hf hc hu he => cases (answers_of_start hd hstart).unique ha
  | @pending early hn hf hc hu he hp =>
    have hl : m.registry.launch? m.deed = some (.expose n .obtain, early) := by
      rw [hd, Registry.launch?, hstart, Outset.launch?]
    obtain ⟨m', he, hr⟩ := answer_of_launch Registry.reply?_of_ends_expose hl ha
    obtain ⟨object, hd⟩ | ⟨p, hd⟩ := Deed.ends?_expose he <;> rw [hd] at hr <;> cases hr
  | fresh hn hf hc hu =>
    have hl : m.registry.launch? m.deed =
        some (.construct n m.registry.marks.window.isNone, factory) := by
      rw [hd, Registry.launch?, hstart, Outset.launch?]
    obtain ⟨m', he, hr⟩ := answer_of_launch Registry.reply?_of_ends_construct hl ha
    obtain ⟨outcome, hd⟩ | ⟨p, hd⟩ := Deed.ends?_construct he <;> rw [hd] at hr
    · cases outcome <;> cases hr
    · cases hr

/-- At every point of a run that exempts no name, the marks are the names of the constructions in
progress, early objects and deferred callbacks belong to these, and the window is open while there
are any. So nothing is left when none is in progress, a name that came to nothing may be tried
again, and only what is under construction and shows no object is refused as circular. -/
theorem marks_follow_constructions {settings : Settings} {memory : σ}
    {main : Program σ (Request κ) Unit} {k : Nat}
    (ht : ∀ d ∈ deeds client k (.ofMain settings.registry memory main), d.exempts = false) :
    let m := run client k (.ofMain settings.registry memory main)
    let store := m.registry.store
    let marks := m.registry.marks
    marks.underway = m.making ∧ m.making.Nodup ∧
      (∀ n, store.early[n]? ≠ none ∨ store.pending[n]? ≠ none → n ∈ m.making) ∧
      (marks.window ≠ none ↔ m.making ≠ []) ∧
      (m.making = [] →
        marks.underway = [] ∧ store.early = ∅ ∧ store.pending = ∅ ∧ marks.window = none) ∧
      ∀ n factory, m.deed = .asked (.obtain n factory) → store.closed = false →
        (n ≠ "" → store.finished[n]? = none → n ∉ m.making →
          m.registry.launch? m.deed = some (.construct n m.making.isEmpty, factory)) ∧
        (m.Answers client (.made (.error (.circularCreation n))) ↔
          n ∈ m.making ∧ store.finished[n]? = none ∧ store.early[n]? = none ∧
            store.pending[n]? = none) := by
  intro m store marks
  have hr : m.Reachable client := ⟨settings, memory, main, k, rfl⟩
  have hn : m.registry.Nests m.duties := nests_run ht
  have hu : marks.underway = m.making := hn.underway
  have hw : marks.window.isSome = !m.making.isEmpty := by rw [← hu]; exact hn.window
  have hc : store.Confined m.making := by rw [← hu]; exact hn.confined
  refine ⟨hu, hn.nested.nodup, hc, ?_, fun hm => ?_, fun n factory hd hopen => ⟨?_, ?_, ?_⟩⟩
  · rw [← Option.isSome_iff_ne_none, hw]
    simp only [Bool.not_eq_true', List.isEmpty_eq_false_iff, ne_eq]
  · rw [hm] at hu hw hc
    exact ⟨hu, hc.empty.1, hc.empty.2, Option.isNone_iff_eq_none.1 (by simpa using hw)⟩
  · intro hname hf hmk
    have hnot : marks.isUnderway n = false := by
      rw [Bool.eq_false_iff]
      exact mt hn.isUnderway.1 hmk
    rw [hd, Registry.launch?]
    change (m.registry.obtain n factory).launch? = _
    rw [Registry.obtain_fresh hname hf hopen hnot, Outset.launch?]
    have hempty : marks.window.isNone = m.making.isEmpty := by
      rw [← Option.not_isSome, hw, Bool.not_not]
    rw [hempty]
  · intro ha
    obtain ⟨hun, hrest⟩ := circular_of_answers hd ha
    exact ⟨hn.isUnderway.1 hun, hrest⟩
  · rintro ⟨hmk, hf, he, hp⟩
    have hname : n ≠ "" := by
      rintro rfl
      exact (nameless_of_reachable hr).2 hmk
    exact answers_of_start hd
      (Registry.obtain_circular hname hf hopen (hn.isUnderway.2 hmk) he hp)

def selfish : Client Unit (Request Bool) Bool where
  factory
    | true => do
      let _ ← .ask (.obtain "a" true)
      return .error (.raised "no")
    | false => do
      let _ ← .ask (.obtain "a" true)
      return .ok ⟨0, .unit⟩
  early _ := return ⟨1, .unit⟩
  disposer _ := return .ok ()
  hear _ memory := memory

def wanting : Program Unit (Request Bool) Unit := do
  let _ ← .ask (.obtain "b" false)

theorem marks_follow_constructions_selfish :
    (∀ d ∈ deeds selfish 2 (.ofMain ({} : Settings).registry () wanting), d.exempts = false) ∧
      (run selfish 2 (.ofMain ({} : Settings).registry () wanting)).registry.marks.underway =
        ["a", "b"] ∧
      (run selfish 2 (.ofMain ({} : Settings).registry () wanting)).Answers selfish
        (.made (.error (.circularCreation "a"))) := by
  have ht : ∀ d ∈ deeds selfish 2 (.ofMain ({} : Settings).registry () wanting),
      d.exempts = false := by decide
  obtain ⟨hu, -, -, -, -, ha⟩ := marks_follow_constructions ht
  refine ⟨ht, hu.trans (by decide), ?_⟩
  exact (ha "a" true rfl (by decide)).2.2 (by decide)

end Machine

end ObjectRegistry
