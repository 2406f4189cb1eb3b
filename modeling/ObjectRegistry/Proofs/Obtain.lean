import ObjectRegistry.Proofs.History

namespace ObjectRegistry

variable {κ : Type}

namespace Marks

variable {m : Marks} {n : Name}

theorem enter_of_underway (h : m.isUnderway n = true) :
    m.enter n = .error (.circularCreation n) := by
  simp only [isUnderway, isMarked, Bool.and_eq_true, decide_eq_true_eq] at h
  rw [enter, if_neg h.1, if_pos h.2]

theorem enter_of_not_underway (h : m.isUnderway n = false) :
    m.enter n =
      .ok { m with underway := if n ∈ m.exempt then m.underway else n :: m.underway } := by
  by_cases he : n ∈ m.exempt
  · rw [enter, if_pos he, if_pos he]
  · have hm : n ∉ m.underway := by simpa [isUnderway, isMarked, he] using h
    rw [enter, if_neg he, if_neg hm, if_neg he]

end Marks

namespace Registry

variable {r : Registry κ} {n : Name} {factory : κ}

def begun (r : Registry κ) (n : Name) : Registry κ :=
  { r with
    marks :=
      { r.marks with
        underway := if n ∈ r.marks.exempt then r.marks.underway else n :: r.marks.underway
        window := some (r.marks.window.getD []) } }

theorem obtain_finished {h : Handle} (hn : n ≠ "") (hf : r.store.finished[n]? = some h) :
    r.obtain n factory = .reply (.made (.ok h)) r [.finishedFound n] := by
  simp only [obtain, hn, hf, ↓reduceIte]

theorem obtain_closed (hn : n ≠ "") (hf : r.store.finished[n]? = none)
    (hc : r.store.closed = true) :
    r.obtain n factory = .reply (.made (.error (.shutDown n))) r [] := by
  simp only [obtain, hn, hf, hc, ↓reduceIte]

section Open

variable (hn : n ≠ "") (hf : r.store.finished[n]? = none) (hc : r.store.closed = false)
include hn hf hc

theorem obtain_open :
    r.obtain n factory = (r.findEarly n .obtain).getD (r.construct n factory) := by
  simp only [obtain, hn, hf, hc, ↓reduceIte, Bool.false_eq_true]

theorem obtain_early {h : Handle} (hu : r.marks.isUnderway n = true)
    (he : r.store.early[n]? = some h) :
    r.obtain n factory = .reply (.made (.ok h)) r [.earlyFound n] := by
  rw [obtain_open hn hf hc]
  simp only [findEarly, hu, he, ↓reduceIte, Option.getD_some, Purpose.answer, Purpose.events]

theorem obtain_pending {early : κ} (hu : r.marks.isUnderway n = true)
    (he : r.store.early[n]? = none) (hp : r.store.pending[n]? = some early) :
    r.obtain n factory =
      .expose n .obtain early { r with store := r.store.takePending n } := by
  rw [obtain_open hn hf hc]
  simp only [findEarly, hu, he, hp, ↓reduceIte, Option.map_some, Option.getD_some]

theorem obtain_circular (hu : r.marks.isUnderway n = true)
    (he : r.store.early[n]? = none) (hp : r.store.pending[n]? = none) :
    r.obtain n factory = .reply (.made (.error (.circularCreation n))) r [] := by
  rw [obtain_open hn hf hc]
  simp only [findEarly, hu, he, hp, ↓reduceIte, Option.map_none, Option.getD_none, construct,
    Marks.enter_of_underway hu]

theorem obtain_fresh (hu : r.marks.isUnderway n = false) :
    r.obtain n factory = .construct n r.marks.window.isNone factory (r.begun n) := by
  rw [obtain_open hn hf hc]
  simp only [findEarly, hu, Bool.false_eq_true, ↓reduceIte, Option.getD_none, construct,
    Marks.enter_of_not_underway hu]
  rfl

end Open

/-- The ways in which a request for `n` begins. -/
inductive Obtains (r : Registry κ) (n : Name) (factory : κ) : Outset κ → Prop where
  | nameless (hn : n = "") : Obtains r n factory (.reply (.made (.error .emptyName)) r [])
  | finished {h : Handle} (hn : n ≠ "") (hf : r.store.finished[n]? = some h) :
    Obtains r n factory (.reply (.made (.ok h)) r [.finishedFound n])
  | closed (hn : n ≠ "") (hf : r.store.finished[n]? = none) (hc : r.store.closed = true) :
    Obtains r n factory (.reply (.made (.error (.shutDown n))) r [])
  | early {h : Handle} (hn : n ≠ "") (hf : r.store.finished[n]? = none)
    (hc : r.store.closed = false) (hu : r.marks.isUnderway n = true)
    (he : r.store.early[n]? = some h) :
    Obtains r n factory (.reply (.made (.ok h)) r [.earlyFound n])
  | pending {early : κ} (hn : n ≠ "") (hf : r.store.finished[n]? = none)
    (hc : r.store.closed = false) (hu : r.marks.isUnderway n = true)
    (he : r.store.early[n]? = none) (hp : r.store.pending[n]? = some early) :
    Obtains r n factory (.expose n .obtain early { r with store := r.store.takePending n })
  | circular (hn : n ≠ "") (hf : r.store.finished[n]? = none) (hc : r.store.closed = false)
    (hu : r.marks.isUnderway n = true) (he : r.store.early[n]? = none)
    (hp : r.store.pending[n]? = none) :
    Obtains r n factory (.reply (.made (.error (.circularCreation n))) r [])
  | fresh (hn : n ≠ "") (hf : r.store.finished[n]? = none) (hc : r.store.closed = false)
    (hu : r.marks.isUnderway n = false) :
    Obtains r n factory (.construct n r.marks.window.isNone factory (r.begun n))

theorem obtains (r : Registry κ) (n : Name) (factory : κ) :
    Obtains r n factory (r.obtain n factory) := by
  by_cases hn : n = ""
  · have h : r.obtain n factory = .reply (.made (.error .emptyName)) r [] := by
      simp only [obtain, hn, ↓reduceIte]
    rw [h]
    exact .nameless hn
  cases hf : r.store.finished[n]? with
  | some g => rw [obtain_finished hn hf]; exact .finished hn hf
  | none =>
    cases hc : r.store.closed with
    | true => rw [obtain_closed hn hf hc]; exact .closed hn hf hc
    | false =>
      cases hu : r.marks.isUnderway n with
      | false => rw [obtain_fresh hn hf hc hu]; exact .fresh hn hf hc hu
      | true =>
        cases he : r.store.early[n]? with
        | some g => rw [obtain_early hn hf hc hu he]; exact .early hn hf hc hu he
        | none =>
          cases hp : r.store.pending[n]? with
          | some early =>
            rw [obtain_pending hn hf hc hu he hp]
            exact .pending hn hf hc hu he hp
          | none => rw [obtain_circular hn hf hc hu he hp]; exact .circular hn hf hc hu he hp

inductive Finds (r : Registry κ) (n : Name) (purpose : Purpose) : Outset κ → Prop where
  | found {h : Handle}
    (hf : r.store.finished[n]? = some h ∨
      r.store.finished[n]? = none ∧ r.marks.isUnderway n = true ∧ r.store.early[n]? = some h) :
    Finds r n purpose (.reply (purpose.answer h) r (purpose.events n h))
  | pending {early : κ} (hf : r.store.finished[n]? = none) (hu : r.marks.isUnderway n = true)
    (he : r.store.early[n]? = none) (hp : r.store.pending[n]? = some early) :
    Finds r n purpose (.expose n purpose early { r with store := r.store.takePending n })
  | absent (hf : r.store.finished[n]? = none)
    (hu : r.marks.isUnderway n = true →
      r.store.early[n]? = none ∧ r.store.pending[n]? = none) :
    Finds r n purpose (.reply (.object none) r [])

theorem finds (r : Registry κ) (n : Name) (purpose : Purpose) :
    Finds r n purpose (r.find n purpose) := by
  rw [find]
  cases hf : r.store.finished[n]? with
  | some g => exact .found (.inl hf)
  | none =>
    rw [findEarly]
    cases hu : r.marks.isUnderway n with
    | false => exact .absent hf fun h => by rw [hu] at h; cases h
    | true =>
      cases he : r.store.early[n]? with
      | some g => exact .found (.inr ⟨hf, hu, he⟩)
      | none =>
        cases hp : r.store.pending[n]? with
        | some early => exact .pending hf hu he hp
        | none => exact .absent hf fun _ => ⟨he, hp⟩

theorem find_finished {h : Handle} {purpose : Purpose} (hf : r.store.finished[n]? = some h) :
    r.find n purpose = .reply (purpose.answer h) r (purpose.events n h) := by
  simp only [find, hf]

theorem defer_inv (r : Registry κ) (n : Name) (early : κ) :
    (∃ a, r.defer n early = .reply a r []) ∨
      r.store.finished[n]? = none ∧ r.marks.isUnderway n = true ∧
        r.defer n early =
          .reply (.settled (.ok ())) { r with store := r.store.defer n early }
            [.earlyDeferred n] := by
  rw [defer]
  split
  · exact .inl ⟨_, rfl⟩
  split
  · exact .inl ⟨_, rfl⟩
  · case isFalse hf =>
    split
    · case isTrue hu =>
      have hf : r.store.finished[n]? = none := by
        rw [Store.holds, Std.ExtTreeMap.contains_iff_mem] at hf
        exact Std.ExtTreeMap.getElem?_eq_none hf
      exact .inr ⟨hf, hu, rfl⟩
    · exact .inl ⟨_, rfl⟩

theorem defer_underway {early : κ} (hn : n ≠ "") (hf : r.store.finished[n]? = none)
    (hu : r.marks.isUnderway n = true) :
    r.defer n early =
      .reply (.settled (.ok ())) { r with store := r.store.defer n early } [.earlyDeferred n] := by
  have hh : r.store.holds n = false := by
    rw [Store.holds, Std.ExtTreeMap.contains_eq_isSome_getElem?, hf, Option.isSome_none]
  simp only [defer, hn, hh, hu, ↓reduceIte, Bool.false_eq_true]

theorem onDestroy_inv (r : Registry κ) (n : Name) (callback : κ) :
    ∃ a disposers, r.onDestroy n callback = .reply a { r with disposers } [] := by
  rw [onDestroy]
  split
  · exact ⟨_, _, rfl⟩
  · exact ⟨_, r.disposers, rfl⟩

/-- The ways in which an operation begins. What is answered at once is not told apart. -/
inductive Begins (r : Registry κ) : Op κ → Outset κ → Prop where
  | replied {op : Op κ} {a : Answer} {r' : Registry κ} {events : List Event} :
    Begins r op (.reply a r' events)
  | construct {n : Name} {factory : κ} (hn : n ≠ "") (hf : r.store.finished[n]? = none)
    (hc : r.store.closed = false) (hu : r.marks.isUnderway n = false) :
    Begins r (.obtain n factory) (.construct n r.marks.window.isNone factory (r.begun n))
  | expose {op : Op κ} {n : Name} {purpose : Purpose} {early : κ} :
    Begins r op (.expose n purpose early { r with store := r.store.takePending n })
  | one {n : Name} : Begins r (.destroy n) (.tearDown (.one n) r [])
  | all :
    Begins r .destroyAll
      (.tearDown (.all r.disposers) { r with store := r.store.close }
        [.teardownStarted r.store.size])

theorem Finds.begins {purpose : Purpose} {op : Op κ} {o : Outset κ} (h : Finds r n purpose o) :
    Begins r op o := by
  cases h with
  | found hf => exact .replied
  | pending hf hu he hp => exact .expose
  | absent hf hu => exact .replied

theorem begins (r : Registry κ) (op : Op κ) : Begins r op (r.start op) := by
  cases op with
  | links op | marks op | store op | edges op | hasDisposer k | disposerNames | describe part =>
    exact .replied
  | find k => exact (r.finds k .find).begins
  | findAs given k kind => exact (r.finds k (.findAs given kind)).begins
  | destroy k => exact .one
  | destroyAll => exact .all
  | defer k early =>
    obtain ⟨a, ha⟩ | ⟨-, -, ha⟩ := r.defer_inv k early <;> rw [start, ha] <;> exact .replied
  | onDestroy k callback =>
    obtain ⟨a, disposers, ha⟩ := r.onDestroy_inv k callback
    rw [start, ha]
    exact .replied
  | obtain k factory =>
    rw [start]
    have ho := r.obtains k factory
    generalize r.obtain k factory = o at ho
    cases ho with
    | nameless hn => exact .replied
    | finished hn hf => exact .replied
    | closed hn hf hc => exact .replied
    | early hn hf hc hu he => exact .replied
    | pending hn hf hc hu he hp => exact .expose
    | circular hn hf hc hu he hp => exact .replied
    | fresh hn hf hc hu => exact .construct hn hf hc hu

theorem launch?_construct {d : Deed κ} {ownsWindow : Bool}
    (h : r.launch? d = some (.construct n ownsWindow, factory)) :
    d = .asked (.obtain n factory) ∧ n ≠ "" ∧ r.store.finished[n]? = none ∧
      r.store.closed = false ∧ r.marks.isUnderway n = false ∧
      ownsWindow = r.marks.window.isNone := by
  cases d with
  | asked op =>
    rw [launch?] at h
    have ho := r.begins op
    generalize r.start op = o at ho h
    cases ho with
    | construct hn hf hc hu =>
      cases h
      exact ⟨rfl, hn, hf, hc, hu, rfl⟩
    | _ => cases h
  | turned walk =>
    simp only [launch?] at h
    split at h <;> cases h
  | _ => cases h

theorem launch?_of_making {d : Deed κ}
    (h : n ∈ ((r.launch? d).map (·.1)).toList.filterMap Duty.making?) :
    ∃ ownsWindow factory, r.launch? d = some (.construct n ownsWindow, factory) := by
  obtain ⟨duty, hd, hn⟩ := List.mem_filterMap.1 h
  obtain ⟨⟨duty', factory⟩, hl, rfl⟩ := Option.map_eq_some_iff.1 (Option.mem_toList.1 hd)
  cases duty' with
  | construct k ownsWindow =>
    cases hn
    exact ⟨ownsWindow, factory, hl⟩
  | _ => cases hn

end Registry

end ObjectRegistry
