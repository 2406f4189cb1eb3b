import ObjectRegistry.Proofs.CreateOnce

namespace ObjectRegistry

variable {σ ρ κ : Type}

def Deed.noted? : Deed κ → Option Fault
  | .asked (.marks (.note fault)) => some fault
  | _ => none

theorem Deed.noted?_of_ends {d : Deed κ} {duty : Duty κ} (h : d.ends? = some duty) :
    d.noted? = none := by
  cases d <;> first | rfl | cases h

def Deed.keepsWindow : Deed κ → Bool
  | .asked (.marks .openWindow) | .asked (.marks .closeWindow) => false
  | _ => true

namespace Marks

variable {m : Marks}

theorem window_leave (n : Name) : (m.leave n).window = m.window := by
  rw [leave]
  split <;> rfl

theorem note_of_none (h : m.window = none) (fault : Fault) : m.note fault = m := by
  rw [note, h]
  exact congrArg (Marks.mk m.underway m.exempt) h.symm

theorem window_enter (n : Name) : ((Op.enter n).update m).window = m.window := by
  rw [Op.update, enter]
  split
  · rfl
  · split <;> rfl

end Marks

namespace Registry

variable (r : Registry κ)

theorem marks_start (op : Op κ) :
    (∃ n factory, op = .obtain n factory ∧
        r.start op = .construct n r.marks.window.isNone factory (r.begun n)) ∨
      (∀ n ownsWindow factory, (r.start op).launch? ≠ some (.construct n ownsWindow, factory)) ∧
        (r.start op).registry.marks =
          match op with
          | .marks op => op.update r.marks
          | _ => r.marks := by
  have found {k : Name} {purpose : Purpose} {o : Outset κ} (ho : Finds r k purpose o) :
      (∀ n ownsWindow factory, o.launch? ≠ some (.construct n ownsWindow, factory)) ∧
        o.registry.marks = r.marks := by
    cases ho <;> exact ⟨fun _ _ _ h => (by cases h), rfl⟩
  cases op with
  | links op | marks op | store op | edges op | hasDisposer k | disposerNames | describe part
  | destroy k | destroyAll => exact .inr ⟨fun _ _ _ h => (by cases h), rfl⟩
  | find k => exact .inr (found (r.finds k .find))
  | findAs given k kind => exact .inr (found (r.finds k (.findAs given kind)))
  | defer k early =>
    obtain ⟨a, ha⟩ | ⟨-, -, ha⟩ := r.defer_inv k early <;> rw [start, ha] <;>
      exact .inr ⟨fun _ _ _ h => (by cases h), rfl⟩
  | onDestroy k callback =>
    obtain ⟨a, disposers, ha⟩ := r.onDestroy_inv k callback
    rw [start, ha]
    exact .inr ⟨fun _ _ _ h => (by cases h), rfl⟩
  | obtain k factory =>
    rw [start]
    have ho := r.obtains k factory
    generalize r.obtain k factory = o at ho
    cases ho with
    | fresh => exact .inl ⟨k, factory, rfl, rfl⟩
    | _ => exact .inr ⟨fun _ _ _ h => (by cases h), rfl⟩

theorem marks_turned (walk : Walk κ) : (r.after (.turned walk)).marks = r.marks := by
  obtain ⟨tasks, visited, report⟩ := walk
  cases tasks with
  | nil => rfl
  | cons task rest =>
    cases task with
    | start k | contained k | forget k | sweep => rfl
    | dispose k callback claimed => cases callback <;> rfl
    | enter k =>
      simp only [after, Walk.turn]
      split <;> rfl

theorem window_release (n : Name) (ownsWindow : Bool) :
    (r.release n ownsWindow).marks.window = if ownsWindow then none else r.marks.window := by
  rw [release, Marks.window_leave]
  split <;> rfl

end Registry

inductive WindowAfter (r : Registry κ) : Deed κ → Option (List Fault) → Prop where
  | kept {d : Deed κ} (hn : d.noted? = none)
    (he : ∀ n ownsWindow, d.ends? ≠ some (.construct n ownsWindow))
    (hl : ∀ n ownsWindow factory, r.launch? d ≠ some (.construct n ownsWindow, factory)) :
    WindowAfter r d r.marks.window
  | noted {fault : Fault} :
    WindowAfter r (.asked (.marks (.note fault))) (r.marks.window.map (· ++ [fault]))
  | opened {n : Name} {factory : κ}
    (hl : r.launch? (.asked (.obtain n factory)) =
      some (.construct n r.marks.window.isNone, factory)) :
    WindowAfter r (.asked (.obtain n factory)) (some (r.marks.window.getD []))
  | ended {d : Deed κ} {n : Name} {ownsWindow : Bool}
    (he : d.ends? = some (.construct n ownsWindow)) :
    WindowAfter r d (if ownsWindow then none else r.marks.window)

theorem Registry.windowAfter (r : Registry κ) {d : Deed κ} (hd : d.keepsWindow = true) :
    WindowAfter r d (r.after d).marks.window := by
  cases d with
  | idle | disposed | withheld | showed =>
    exact .kept rfl (fun _ _ h => by cases h) fun _ _ _ h => by cases h
  | turned walk =>
    rw [r.marks_turned]
    refine .kept rfl (fun _ _ h => by cases h) fun n ownsWindow factory hl => ?_
    cases (launch?_construct hl).1
  | brokeOff n ownsWindow p =>
    rw [after, abandon, window_release]
    exact .ended rfl
  | built n ownsWindow outcome =>
    cases outcome with
    | ok h | error fault =>
      simp only [after, complete, abandon, window_release]
      exact .ended rfl
  | asked op =>
    obtain ⟨n, factory, rfl, hs⟩ | ⟨hl, hm⟩ := r.marks_start op
    · rw [after, hs]
      exact .opened (by rw [launch?, hs, Outset.launch?])
    rw [after, hm]
    have he (n : Name) (ownsWindow : Bool) :
        (Deed.asked op).ends? ≠ some (.construct n ownsWindow) := fun h => by cases h
    cases op with
    | marks op =>
      cases op with
      | openWindow | closeWindow => cases hd
      | note fault => exact .noted
      | enter n =>
        change WindowAfter r _ ((Marks.Op.enter n).update r.marks).window
        rw [Marks.window_enter]
        exact .kept rfl he hl
      | leave n =>
        change WindowAfter r _ (r.marks.leave n).window
        rw [Marks.window_leave]
        exact .kept rfl he hl
      | isUnderway | isMarked | track | size | isEmpty | describe => exact .kept rfl he hl
    | _ => exact .kept rfl he hl

theorem WindowAfter.eq_some {r : Registry κ} {d : Deed κ} {w : Option (List Fault)}
    (h : WindowAfter r d w) (hw : w.isSome = true) :
    w = some (r.marks.window.getD [] ++ d.noted?.toList) := by
  cases h with
  | kept hn he hl =>
    obtain ⟨faults, hf⟩ := Option.isSome_iff_exists.1 hw
    rw [hf, hn, Option.getD_some, Option.toList_none, List.append_nil]
  | @noted fault =>
    rw [Option.isSome_map] at hw
    obtain ⟨faults, hf⟩ := Option.isSome_iff_exists.1 hw
    rw [hf]
    rfl
  | opened hl => exact congrArg some (List.append_nil _).symm
  | @ended d n ownsWindow he =>
    cases ownsWindow with
    | true => cases hw
    | false =>
      obtain ⟨faults, hf⟩ := Option.isSome_iff_exists.1 hw
      rw [Deed.noted?_of_ends he, Option.toList_none, List.append_nil]
      simp only [Bool.false_eq_true, ↓reduceIte] at hf ⊢
      rw [hf, Option.getD_some]

/-- The outermost construction owns the window, and no other does. -/
def Duty.Owns (below : List Name) : Duty κ → Prop
  | .construct _ ownsWindow => ownsWindow = below.isEmpty
  | _ => True

def Owned : List (Duty κ) → Prop
  | [] => True
  | duty :: below => duty.Owns (below.filterMap Duty.making?) ∧ Owned below

/-- The window is open while constructions are in progress, for the outermost of them. -/
structure OpenForOutermost (window : Option (List Fault)) (duties : List (Duty κ)) : Prop where
  isSome : window.isSome = !(duties.filterMap Duty.making?).isEmpty
  owned : Owned duties

namespace OpenForOutermost

variable {r : Registry κ} {d : Deed κ} {duty : Duty κ} {duties below : List (Duty κ)}
  {window : Option (List Fault)}

theorem fresh : OpenForOutermost none [(.main : Duty κ)] := ⟨rfl, trivial, trivial⟩

theorem cons_iff (hd : ∀ n ownsWindow, duty ≠ .construct n ownsWindow) :
    OpenForOutermost window (duty :: duties) ↔ OpenForOutermost window duties := by
  cases duty with
  | construct n ownsWindow => exact absurd rfl (hd n ownsWindow)
  | main | expose | dispose =>
    exact ⟨fun h => ⟨h.isSome, h.owned.2⟩, fun h => ⟨h.isSome, trivial, h.owned⟩⟩

theorem append_iff {o : Option (Duty κ)} (ho : ∀ n ownsWindow, o ≠ some (.construct n ownsWindow)) :
    OpenForOutermost window (o.toList ++ duties) ↔ OpenForOutermost window duties := by
  cases o with
  | none => exact Iff.rfl
  | some duty => exact cons_iff fun n ownsWindow hd => ho n ownsWindow (congrArg some hd)

theorem begun {n : Name} (h : OpenForOutermost window duties) :
    OpenForOutermost (some (window.getD [])) (.construct n window.isNone :: duties) where
  isSome := rfl
  owned := by
    refine ⟨?_, h.owned⟩
    rw [Duty.Owns, ← Option.not_isSome, h.isSome, Bool.not_not]

theorem ended {n : Name} {ownsWindow : Bool}
    (h : OpenForOutermost window (.construct n ownsWindow :: below)) :
    OpenForOutermost (if ownsWindow then none else window) below where
  isSome := by
    have howns : ownsWindow = (below.filterMap Duty.making?).isEmpty := h.owned.1
    rw [← howns]
    cases ownsWindow with
    | true => rfl
    | false => exact h.isSome
  owned := h.owned.2

theorem after (h : OpenForOutermost r.marks.window duties) (hd : d.keepsWindow = true)
    (hs : d.ends?.toList ++ below = ((r.launch? d).map (·.1)).toList ++ duties) :
    OpenForOutermost (r.after d).marks.window below := by
  have hw := r.windowAfter hd
  generalize (r.after d).marks.window = w at hw
  cases hw with
  | kept hn he hl =>
    have hlaunch : ∀ n ownsWindow, (r.launch? d).map (·.1) ≠ some (.construct n ownsWindow) := by
      intro n ownsWindow hmap
      obtain ⟨⟨duty, factory⟩, hlaunch, rfl⟩ := Option.map_eq_some_iff.1 hmap
      exact hl n ownsWindow factory hlaunch
    rwa [← append_iff he, hs, append_iff hlaunch]
  | noted =>
    obtain rfl : below = duties := hs
    exact ⟨Option.isSome_map.trans h.isSome, h.owned⟩
  | opened hl =>
    rw [hl] at hs
    obtain rfl : below = _ := hs
    exact h.begun
  | ended he =>
    rw [he, Machine.launch?_of_ends r he] at hs
    obtain rfl : _ = duties := hs
    exact h.ended

end OpenForOutermost

theorem Request.keepsWindow {links : Links} (request : Request κ) :
    (Deed.asked (request.resolve links)).keepsWindow = true := by
  cases request <;> rfl

namespace Machine

section Window

variable [Language ρ κ] {client : Client σ ρ κ} {m m' : Machine σ ρ κ}

def noted (client : Client σ ρ κ) (k : Nat) (m : Machine σ ρ κ) : List Fault :=
  (deeds client k m).filterMap Deed.noted?

theorem noted_succ (h : m.step client = some m') (k : Nat) :
    noted client (k + 1) m = m.deed.noted?.toList ++ noted client k m' := by
  rw [noted, deeds_succ h, List.filterMap_cons]
  cases m.deed.noted? <;> rfl

theorem window_run {k : Nat} (hd : ∀ j < k, (run client j m).deed.keepsWindow = true)
    (hw : ∀ j < k, (run client (j + 1) m).registry.marks.window.isSome = true) :
    (run client k m).registry.marks.window.getD [] =
      m.registry.marks.window.getD [] ++ noted client k m := by
  induction k generalizing m with
  | zero => exact (List.append_nil _).symm
  | succ k ih =>
    cases h : m.step client with
    | none => rw [run_of_stop h, noted, deeds_of_stop h, List.filterMap_nil, List.append_nil]
    | some m' =>
      have hnext (j : Nat) : run client (j + 1) m = run client j m' := run_succ_of_step h j
      have hstep : m'.registry.marks.window =
          some (m.registry.marks.window.getD [] ++ m.deed.noted?.toList) := by
        have hwindow : WindowAfter m.registry m.deed m'.registry.marks.window :=
          registry_step h ▸ m.registry.windowAfter (hd 0 (Nat.succ_pos k))
        refine hwindow.eq_some ?_
        have hopen := hw 0 (Nat.succ_pos k)
        rwa [hnext] at hopen
      have hrest := ih (m := m')
        (fun j hj => by
          rw [← hnext]
          exact hd (j + 1) (Nat.succ_lt_succ hj))
        fun j hj => by
          rw [← hnext]
          exact hw (j + 1) (Nat.succ_lt_succ hj)
      rw [hnext, hrest, hstep, Option.getD_some, noted_succ h, List.append_assoc]

theorem launch?_of_failed {n name : Name} {factory : κ} {source : Fault} {faults : List Fault}
    {k : Nat} (hd : m.deed = .asked (.obtain n factory))
    (ha : m.AnswersAfter client k (.made (.error (.creationFailed name source faults)))) :
    m.registry.launch? m.deed =
      some (.construct n m.registry.marks.window.isNone, factory) := by
  have ho := m.registry.obtains n factory
  have hs : m.registry.start (.obtain n factory) = m.registry.obtain n factory := rfl
  generalize m.registry.obtain n factory = o at ho hs
  cases ho with
  | fresh hn hf hc hu => rw [hd, Registry.launch?, hs, Outset.launch?]
  | nameless hn => cases (answersAfter_of_start hd hs).unique ha |>.2
  | finished hn hf => cases (answersAfter_of_start hd hs).unique ha |>.2
  | closed hn hf hc => cases (answersAfter_of_start hd hs).unique ha |>.2
  | early hn hf hc hu he => cases (answersAfter_of_start hd hs).unique ha |>.2
  | circular hn hf hc hu he hp => cases (answersAfter_of_start hd hs).unique ha |>.2
  | @pending early hn hf hc hu he hp =>
    have hl : m.registry.launch? m.deed = some (.expose n .obtain, early) := by
      rw [hd, Registry.launch?, hs, Outset.launch?]
    obtain ⟨he, hr⟩ := ends_of_answersAfter Registry.reply?_of_ends_expose hl ha
    obtain ⟨object, hd⟩ | ⟨p, hd⟩ := Deed.ends?_expose he <;> rw [hd] at hr <;> cases hr

end Window

variable {client : Client σ (Request κ) κ} {m m' : Machine σ (Request κ) κ}

theorem keepsWindow_of_request (m : Machine σ (Request κ) κ) : m.deed.keepsWindow = true := by
  obtain ⟨r, memory, activity, callers⟩ := m
  cases activity with
  | tearDown walk => rfl
  | code duty program =>
    cases program with
    | done result => cases duty <;> rfl
    | panic p => cases duty <;> rfl
    | access change next => cases duty <;> rfl
    | call request next =>
      rw [deed_call]
      exact request.keepsWindow

theorem Reachable.openForOutermost (hm : m.Reachable client) :
    OpenForOutermost m.registry.marks.window m.duties := by
  apply hm.keeps (P := fun m => OpenForOutermost m.registry.marks.window m.duties)
  · exact fun settings memory main => OpenForOutermost.fresh
  · intro m m' ha h
    rw [registry_step h]
    exact ha.after m.keepsWindow_of_request (duties_step h)

theorem Reachable.window_eq_none_iff (hm : m.Reachable client) :
    m.registry.marks.window = none ↔ m.making = [] := by
  rw [← Option.isNone_iff_eq_none, ← Option.not_isSome, hm.openForOutermost.isSome, Bool.not_not,
    List.isEmpty_iff]
  exact Iff.rfl

theorem window_of_builds (hm : m.Reachable client) {n : Name} {k : Nat} {a : Answer}
    (hb : m.Builds n) (h : m.step client = some m') (ha : m.AnswersAfter client k a) :
    ∀ j < k, (run client (j + 1) m).registry.marks.window.isSome = true := by
  intro j hj
  rw [Option.isSome_iff_ne_none, ne_eq, (hm.run (j + 1)).window_eq_none_iff]
  obtain ⟨i, hi, b, hb⟩ | hmk := answered_or_making hb h j
  · obtain ⟨rfl, -⟩ := ha.unique hb
    omega
  · exact List.ne_nil_of_mem hmk

theorem faults_of_failed (hm : m.Reachable client) {n name : Name} {factory : κ} {source : Fault}
    {faults : List Fault} {k : Nat} (hd : m.deed = .asked (.obtain n factory))
    (ha : m.AnswersAfter client k (.made (.error (.creationFailed name source faults)))) :
    name = n ∧ faults = if m.making = [] then noted client k m else [] := by
  have hl := launch?_of_failed hd ha
  obtain ⟨m', hstep⟩ := step_of_asked client hd
  have hopen := window_of_builds hm ⟨_, _, hl⟩ hstep ha
  have hwindow := window_run (fun j _ => keepsWindow_of_request _) hopen
  obtain ⟨he, hr⟩ := ends_of_answersAfter Registry.reply?_of_ends_construct hl ha
  obtain ⟨outcome, hbuilt⟩ | ⟨p, hbroke⟩ := Deed.ends?_construct he
  · rw [hbuilt] at hr
    cases outcome with
    | ok object => cases hr
    | error fault =>
      cases hr
      refine ⟨rfl, ?_⟩
      rw [Registry.suppressed, hwindow]
      by_cases hmk : m.making = []
      · have hnone := hm.window_eq_none_iff.2 hmk
        rw [if_pos hmk, hnone]
        rfl
      · have hsome := mt hm.window_eq_none_iff.1 hmk
        rw [if_neg hmk, Option.isNone_eq_false_iff.2 (Option.isSome_iff_ne_none.2 hsome)]
        rfl
  · rw [hbroke] at hr
    cases hr

/-- Noted faults belong to the outermost construction. When it fails it carries those noted since it
began, in the order of the notes and at whatever depth they were made, and a nested construction
that fails carries none. Nothing is kept while no construction is in progress, and what is noted
then leaves no trace. -/
theorem noted_for_outermost (client : Client σ (Request κ) κ) (settings : Settings) (memory : σ)
    (main : Program σ (Request κ) Unit) :
    let m := fun k => run client k (.ofMain settings.registry memory main)
    (∀ i k n factory name source faults, (m i).deed = .asked (.obtain n factory) →
        (m i).AnswersAfter client k (.made (.error (.creationFailed name source faults))) →
        name = n ∧ faults = if (m i).making = [] then noted client k (m i) else []) ∧
      (∀ k, (m k).making = [] → (m k).registry.marks.window = none) ∧
      ∀ k fault, (m k).making = [] → (m k).deed = .asked (.marks (.note fault)) →
        (m (k + 1)).registry = (m k).registry := by
  intro m
  have hm (k : Nat) : (m k).Reachable client := ⟨settings, memory, main, k, rfl⟩
  refine ⟨fun i k n factory name source faults hd ha => faults_of_failed (hm i) hd ha,
    fun k hmk => (hm k).window_eq_none_iff.2 hmk, fun k fault hmk hd => ?_⟩
  have hnone := (hm k).window_eq_none_iff.2 hmk
  obtain ⟨m', h⟩ := step_of_asked client hd
  have hnext : m (k + 1) = m' := by
    change run client (k + 1) _ = m'
    rw [run_succ]
    change ((m k).step client).getD (m k) = m'
    rw [h, Option.getD_some]
  rw [hnext, registry_step h, hd]
  change { (m k).registry with marks := (m k).registry.marks.note fault } = (m k).registry
  rw [Marks.note_of_none hnone]

def exempting : Client Unit (Request Bool) Bool where
  factory
    | true => do
      let _ ← .ask (.note (.raised "a"))
      let _ ← .ask (.track "n" false)
      let _ ← .ask (.obtain "n" false)
      let _ ← .ask (.note (.raised "c"))
      return .error (.raised "outer")
    | false => do
      let _ ← .ask (.note (.raised "b"))
      return .error (.raised "inner")
  early _ := return ⟨0, .unit⟩
  disposer _ := return .ok ()
  hear _ memory := memory

def exemptingMain : Program Unit (Request Bool) Unit := do
  let _ ← .ask (.note (.raised "lost"))
  let _ ← .ask (.obtain "n" true)

theorem noted_for_outermost_exempting :
    let m := fun k => run exempting k (.ofMain ({} : Settings).registry () exemptingMain)
    let faults := [.raised "a", .raised "b", .raised "c"]
    (m 1).deed = .asked (.obtain "n" true) ∧ (m 1).making = [] ∧
      (m 1).AnswersAfter exempting 7
        (.made (.error (.creationFailed "n" (.raised "outer") faults))) ∧
      faults = noted exempting 7 (m 1) ∧
      (m 4).deed = .asked (.obtain "n" false) ∧ (m 4).making = ["n"] ∧
      (m 4).AnswersAfter exempting 2 (.made (.error (.creationFailed "n" (.raised "inner") []))) ∧
      (m 9).registry.marks.window = none ∧ (m 1).registry = (m 0).registry := by
  intro m faults
  have ha : (m 1).AnswersAfter exempting 7
      (.made (.error (.creationFailed "n" (.raised "outer") faults))) := ⟨rfl, by decide⟩
  have hb : (m 4).AnswersAfter exempting 2
      (.made (.error (.creationFailed "n" (.raised "inner") []))) := ⟨rfl, by decide⟩
  obtain ⟨hfailed, hshut, hlost⟩ := noted_for_outermost exempting {} () exemptingMain
  exact ⟨rfl, rfl, ha, (hfailed 1 7 _ _ _ _ _ rfl ha).2, rfl, rfl, hb, hshut 9 rfl,
    hlost 0 _ rfl rfl⟩

end Machine

end ObjectRegistry
