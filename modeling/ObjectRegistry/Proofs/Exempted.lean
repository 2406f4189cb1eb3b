import ObjectRegistry.Proofs.Noted

namespace ObjectRegistry

variable {σ ρ κ : Type}

/-- Before the time `k` there was one at which `p` held, and `q` has not held since. -/
def Since (p q : Nat → Prop) (k : Nat) : Prop :=
  ∃ i < k, p i ∧ ∀ j, i < j → j < k → ¬q j

theorem since_zero (p q : Nat → Prop) : ¬Since p q 0 := by
  rintro ⟨i, hi, -⟩
  exact Nat.not_lt_zero i hi

theorem since_succ (p q : Nat → Prop) (k : Nat) :
    Since p q (k + 1) ↔ p k ∨ Since p q k ∧ ¬q k := by
  constructor
  · rintro ⟨i, hi, hp, hq⟩
    obtain hlt | rfl := Nat.lt_succ_iff_lt_or_eq.1 hi
    · exact .inr ⟨⟨i, hlt, hp, fun j hij hj => hq j hij (Nat.lt_succ_of_lt hj)⟩,
        hq k hlt (Nat.lt_succ_self k)⟩
    · exact .inl hp
  · rintro (hp | ⟨⟨i, hi, hp, hq⟩, hk⟩)
    · exact ⟨k, Nat.lt_succ_self k, hp, fun j hkj hj => by omega⟩
    · refine ⟨i, Nat.lt_succ_of_lt hi, hp, fun j hij hj => ?_⟩
      obtain hlt | rfl := Nat.lt_succ_iff_lt_or_eq.1 hj
      · exact hq j hij hlt
      · exact hk

def Deed.keepsUnderway : Deed κ → Bool
  | .asked (.marks (.enter _)) | .asked (.marks (.leave _)) => false
  | _ => true

theorem Marks.isUnderway_iff {m : Marks} {n : Name} :
    m.isUnderway n = true ↔ n ∈ m.underway ∧ n ∉ m.exempt := by
  rw [isUnderway, isMarked, Bool.and_eq_true, decide_eq_true_eq, decide_eq_true_eq, and_comm]

inductive UnderwayAfter (r : Registry κ) : Deed κ → List Name → Prop where
  | kept {d : Deed κ} (he : ∀ n ownsWindow, d.ends? ≠ some (.construct n ownsWindow))
    (hl : ∀ n ownsWindow factory, r.launch? d ≠ some (.construct n ownsWindow, factory)) :
    UnderwayAfter r d r.marks.underway
  | begun {d : Deed κ} {n : Name} {ownsWindow : Bool} {factory : κ}
    (hl : r.launch? d = some (.construct n ownsWindow, factory)) :
    UnderwayAfter r d (if n ∈ r.marks.exempt then r.marks.underway else n :: r.marks.underway)
  | ended {d : Deed κ} {n : Name} {ownsWindow : Bool}
    (he : d.ends? = some (.construct n ownsWindow)) :
    UnderwayAfter r d (if n ∈ r.marks.exempt then r.marks.underway else r.marks.underway.erase n)

namespace Registry

variable (r : Registry κ)

theorem underway_release (n : Name) (ownsWindow : Bool) :
    (r.release n ownsWindow).marks.underway =
      if n ∈ r.marks.exempt then r.marks.underway else r.marks.underway.erase n := by
  cases ownsWindow <;> simp only [release, Marks.leave, Marks.closeWindow, ↓reduceIte,
    Bool.false_eq_true] <;> split <;> rfl

theorem underwayAfter {d : Deed κ} (hd : d.keepsUnderway = true) :
    UnderwayAfter r d (r.after d).marks.underway := by
  cases d with
  | idle | disposed | withheld | showed =>
    exact .kept (fun n ownsWindow he => by cases he) fun n ownsWindow factory hl => by cases hl
  | turned walk =>
    rw [r.marks_turned]
    refine .kept (fun n ownsWindow he => by cases he) fun n ownsWindow factory hl => ?_
    cases (launch?_construct hl).1
  | brokeOff n ownsWindow p =>
    rw [after, abandon, underway_release]
    exact .ended rfl
  | built n ownsWindow outcome =>
    cases outcome with
    | ok h | error fault =>
      simp only [after, complete, abandon, underway_release]
      exact .ended rfl
  | asked op =>
    obtain ⟨n, factory, rfl, hs⟩ | ⟨hl, hm⟩ := r.marks_start op
    · rw [after, hs]
      exact .begun (by rw [launch?, hs, Outset.launch?])
    have hkept : UnderwayAfter r (.asked op) r.marks.underway :=
      .kept (fun n ownsWindow he => by cases he) hl
    rw [after, hm]
    cases op with
    | marks op =>
      cases op with
      | enter | leave => cases hd
      | _ => exact hkept
    | _ => exact hkept

end Registry

namespace UnderwayAfter

variable {r : Registry κ} {d : Deed κ} {names : List Name} {n : Name}

theorem mem_iff (h : UnderwayAfter r d names) (hr : r.marks.underway.Nodup) :
    n ∈ names ↔
      ((∃ ownsWindow factory, r.launch? d = some (.construct n ownsWindow, factory)) ∧
          n ∉ r.marks.exempt) ∨
        n ∈ r.marks.underway ∧
          ¬((∃ ownsWindow, d.ends? = some (.construct n ownsWindow)) ∧ n ∉ r.marks.exempt) := by
  cases h with
  | kept he hl =>
    simp only [hl, he, exists_false, false_and, false_or, not_false_eq_true, and_true]
  | @begun k ownsWindow factory hl =>
    have he : d.ends? = none := by
      cases hd : d.ends? with
      | none => rfl
      | some duty => rw [Machine.launch?_of_ends r hd] at hl; cases hl
    have hthis : (∃ ownsWindow factory, r.launch? d = some (.construct n ownsWindow, factory)) ↔
        n = k := by
      rw [hl]
      refine ⟨?_, fun hn => ⟨ownsWindow, factory, hn ▸ rfl⟩⟩
      rintro ⟨_, _, hn⟩
      cases hn
      rfl
    simp only [hthis, he, reduceCtorEq, exists_false, false_and, not_false_eq_true, and_true]
    split
    · case isTrue hk =>
      exact ⟨.inr, fun hn => hn.elim (fun ⟨hnk, hn⟩ => absurd (hnk ▸ hk) hn) id⟩
    · case isFalse hk =>
      rw [List.mem_cons]
      exact or_congr_left ⟨fun hn => ⟨hn, hn ▸ hk⟩, And.left⟩
  | @ended k ownsWindow he =>
    have hl : r.launch? d = none := Machine.launch?_of_ends r he
    have hthis : (∃ ownsWindow, d.ends? = some (.construct n ownsWindow)) ↔ n = k := by
      rw [he]
      refine ⟨?_, fun hn => ⟨ownsWindow, hn ▸ rfl⟩⟩
      rintro ⟨_, hn⟩
      cases hn
      rfl
    simp only [hthis, hl, reduceCtorEq, exists_false, false_and, false_or]
    split
    · case isTrue hk =>
      exact ⟨fun hn => ⟨hn, fun ⟨hnk, he⟩ => he (hnk ▸ hk)⟩, And.left⟩
    · case isFalse hk =>
      rw [hr.mem_erase_iff, and_comm]
      exact and_congr_right fun _ => not_congr ⟨fun hn => ⟨hn, hn ▸ hk⟩, And.left⟩

theorem nodup (h : UnderwayAfter r d names) (hr : r.marks.underway.Nodup) : names.Nodup := by
  cases h with
  | kept => exact hr
  | begun hl =>
    obtain ⟨-, -, -, -, hu, -⟩ := Registry.launch?_construct hl
    split
    · exact hr
    · case isFalse hk =>
      refine List.nodup_cons.2 ⟨fun hmem => ?_, hr⟩
      rw [Marks.isUnderway_iff.2 ⟨hmem, hk⟩] at hu
      cases hu
  | ended =>
    split
    · exact hr
    · exact hr.erase _

end UnderwayAfter

namespace Machine

section Marked

variable [Language ρ κ] {client : Client σ ρ κ} {m m' : Machine σ ρ κ} {n : Name}

/-- The next step begins a construction of `n` and marks the name. -/
def Enters (n : Name) (m : Machine σ ρ κ) : Prop :=
  m.Builds n ∧ n ∉ m.registry.marks.exempt

/-- The next step ends a construction of `n` and takes the mark off the name. -/
def Leaves (n : Name) (m : Machine σ ρ κ) : Prop :=
  (∃ ownsWindow, m.deed.ends? = some (.construct n ownsWindow)) ∧ n ∉ m.registry.marks.exempt

end Marked

variable {client : Client σ (Request κ) κ} {m m' : Machine σ (Request κ) κ} {n : Name}

theorem keepsUnderway_of_request (m : Machine σ (Request κ) κ) :
    m.deed.keepsUnderway = true := by
  cases hd : m.deed with
  | asked op =>
    obtain ⟨duty, request, next, -, rfl⟩ := call_of_asked hd
    cases request <;> rfl
  | _ => rfl

theorem underwayAfter_step (h : m.step client = some m') :
    UnderwayAfter m.registry m.deed m'.registry.marks.underway :=
  registry_step h ▸ m.registry.underwayAfter m.keepsUnderway_of_request

theorem Reachable.underway_nodup (hm : m.Reachable client) : m.registry.marks.underway.Nodup :=
  hm.keeps (P := fun m => m.registry.marks.underway.Nodup) (fun _ _ _ => List.nodup_nil)
    fun _ _ hn h => (underwayAfter_step h).nodup hn

theorem mem_underway_run (client : Client σ (Request κ) κ) (settings : Settings) (memory : σ)
    (main : Program σ (Request κ) Unit) (n : Name) (k : Nat) :
    let m := fun k => run client k (.ofMain settings.registry memory main)
    n ∈ (m k).registry.marks.underway ↔
      Since (fun i => (m i).Enters n) (fun j => (m j).Leaves n) k := by
  intro m
  have hm (k : Nat) : (m k).Reachable client := ⟨settings, memory, main, k, rfl⟩
  have hstep (k : Nat) : n ∈ (m (k + 1)).registry.marks.underway ↔
      (m k).Enters n ∨ n ∈ (m k).registry.marks.underway ∧ ¬(m k).Leaves n := by
    have hnext : m (k + 1) = ((m k).step client).getD (m k) := run_succ k _
    rw [hnext]
    cases hs : (m k).step client with
    | some m' => exact (underwayAfter_step hs).mem_iff (hm k).underway_nodup
    | none =>
      have hstays : ¬(m k).Enters n ∧ ¬(m k).Leaves n := by
        constructor
        · rintro ⟨⟨ownsWindow, factory, hl⟩, -⟩
          obtain ⟨m', h⟩ := step_of_asked client (Registry.launch?_construct hl).1
          rw [hs] at h
          cases h
        · rintro ⟨⟨ownsWindow, he⟩, -⟩
          obtain ⟨m', h⟩ := (hm k).step_of_ends he
          rw [hs] at h
          cases h
      simp only [hstays, Option.getD_none, false_or, not_false_eq_true, and_true]
  induction k with
  | zero => exact iff_of_false List.not_mem_nil (since_zero _ _)
  | succ k ih =>
    exact (hstep k).trans ((or_congr_right (and_congr_left' ih)).trans
      (since_succ (fun i => (m i).Enters n) (fun j => (m j).Leaves n) k).symm)

theorem exempt_of_not_left {k : Nat} (hb : m.Enters n)
    (hk : n ∉ (run client (k + 1) m).making)
    (hleft : ∀ j, 0 < j → j ≤ k → ¬(run client j m).Leaves n) :
    ∃ j ≤ k, ∃ a, m.AnswersAfter client j a ∧ n ∈ (run client j m).registry.marks.exempt := by
  obtain ⟨j, hj, a, ownsWindow, ha, he⟩ := ended_of_not_making hb.1 hk
  have hpos : 0 < j := by
    refine Nat.pos_of_ne_zero ?_
    rintro rfl
    obtain ⟨ownsWindow', factory, hl⟩ := hb.1
    rw [run_zero] at he
    rw [launch?_of_ends m.registry he] at hl
    cases hl
  -- The mark would be gone had the name been tracked when its construction ended.
  exact ⟨j, hj, a, ha, Classical.byContradiction fun hexempt =>
    hleft j hpos hj ⟨⟨ownsWindow, he⟩, hexempt⟩⟩

theorem Reachable.launch?_obtain_iff (hm : m.Reachable client) (hk : m.making = []) {factory : κ}
    (hd : m.deed = .asked (.obtain n factory)) (hn : n ≠ "")
    (hf : m.registry.store.finished[n]? = none) (hc : m.registry.store.closed = false) :
    m.registry.launch? m.deed = some (.construct n true, factory) ↔
      m.registry.marks.isUnderway n = false := by
  constructor
  · intro hl
    exact (Registry.launch?_construct hl).2.2.2.2.1
  · intro hu
    have hwindow : m.registry.marks.window.isNone = true := by
      rw [Option.isNone_iff_eq_none]
      exact hm.window_eq_none_iff.2 hk
    rw [hd, Registry.launch?]
    change (m.registry.obtain n factory).launch? = _
    rw [Registry.obtain_fresh hn hf hc hu, Outset.launch?, hwindow]

/-- While no construction is in progress, a name is marked just when a construction that had marked
it ended while the name was exempt, and no other construction of it has taken the mark off since. A
name that is not marked is not taken for one under construction, however often it is exempted and
tracked again, and its factory runs when an object is wanted of it and there is none. -/
theorem marked_only_by_exemption (client : Client σ (Request κ) κ) (settings : Settings)
    (memory : σ) (main : Program σ (Request κ) Unit) (k : Nat)
    (hk : (run client k (.ofMain settings.registry memory main)).making = []) (n : Name) :
    let m := fun k => run client k (.ofMain settings.registry memory main)
    let r := (m k).registry
    (n ∈ r.marks.underway ↔
        ∃ i l a, i + l < k ∧ (m i).Enters n ∧ (m i).AnswersAfter client l a ∧
          n ∈ (m (i + l)).registry.marks.exempt ∧ ∀ j, i < j → j < k → ¬(m j).Leaves n) ∧
      (r.marks.isUnderway n = true ↔ n ∈ r.marks.underway ∧ n ∉ r.marks.exempt) ∧
      ∀ factory, (m k).deed = .asked (.obtain n factory) → n ≠ "" →
        r.store.finished[n]? = none → r.store.closed = false →
        (r.launch? (m k).deed = some (.construct n true, factory) ↔
          r.marks.isUnderway n = false) := by
  intro m r
  have hm (k : Nat) : (m k).Reachable client := ⟨settings, memory, main, k, rfl⟩
  have hmarked : n ∈ r.marks.underway ↔
      Since (fun i => (m i).Enters n) (fun j => (m j).Leaves n) k :=
    mem_underway_run client settings memory main n k
  refine ⟨hmarked.trans ⟨?_, ?_⟩, Marks.isUnderway_iff, fun factory hd hn hf hc =>
    (hm k).launch?_obtain_iff hk hd hn hf hc⟩
  · rintro ⟨i, hi, hb, hleft⟩
    obtain ⟨d, rfl⟩ := Nat.exists_eq_add_of_lt hi
    have hrun (j : Nat) : run client j (m i) = m (i + j) := (run_add i j _).symm
    have hnone : n ∉ (run client (d + 1) (m i)).making := by
      rw [hrun, ← Nat.add_assoc, show (m (i + d + 1)).making = [] from hk]
      exact List.not_mem_nil
    obtain ⟨l, hl, a, ha, hexempt⟩ := exempt_of_not_left hb hnone fun j hj hjd => by
      rw [hrun]
      exact hleft (i + j) (by omega) (by omega)
    rw [hrun] at hexempt
    exact ⟨i, l, a, by omega, hb, ha, hexempt, hleft⟩
  · rintro ⟨i, l, a, hlk, hb, -, -, hleft⟩
    exact ⟨i, by omega, hb, hleft⟩

section Forgetful

def forgetful : Client Unit (Request Bool) Bool where
  factory exempts := do
    if exempts then
      let _ ← Program.ask (.track "n" false)
      return .error (.raised "no")
    return .ok ⟨0, .unit⟩
  early _ := return ⟨0, .unit⟩
  disposer _ := return .ok ()
  hear _ memory := memory

def forgetfulMain : Program Unit (Request Bool) Unit := do
  let _ ← .ask (.obtain "n" true)
  let _ ← .ask (.track "n" true)
  let _ ← .ask (.obtain "n" false)

theorem marked_only_by_exemption_forgetful :
    let m := fun k => run forgetful k (.ofMain ({} : Settings).registry () forgetfulMain)
    (m 4).making = [] ∧ (m 0).Enters "n" ∧
      (m 0).AnswersAfter forgetful 2 (.made (.error (.creationFailed "n" (.raised "no") []))) ∧
      "n" ∈ (m 2).registry.marks.exempt ∧ "n" ∈ (m 4).registry.marks.underway ∧
      (m 4).registry.launch? (m 4).deed ≠ some (.construct "n" true, false) := by
  intro m
  have hk : (m 4).making = [] := rfl
  have hb : (m 0).Enters "n" := ⟨⟨true, true, rfl⟩, by decide⟩
  have ha : (m 0).AnswersAfter forgetful 2
      (.made (.error (.creationFailed "n" (.raised "no") []))) := ⟨rfl, by decide⟩
  have hexempt : "n" ∈ (m 2).registry.marks.exempt := by decide
  have hleft : ∀ j, 0 < j → j < 4 → ¬(m j).Leaves "n" := by
    rintro j hj hj4 ⟨⟨ownsWindow, he⟩, hn⟩
    have hall : ∀ j < 4, (m j).deed.ends? = none ∨ "n" ∈ (m j).registry.marks.exempt := by
      rintro (_ | _ | _ | _ | j) hj
      · exact .inl rfl
      · exact .inl rfl
      · exact .inr (by decide)
      · exact .inl rfl
      · omega
    obtain hnone | hmem := hall j hj4
    · rw [hnone] at he
      cases he
    · exact hn hmem
  obtain ⟨hmarked, hunderway, hruns⟩ :=
    marked_only_by_exemption forgetful {} () forgetfulMain 4 hk "n"
  have hmem : "n" ∈ (m 4).registry.marks.underway :=
    hmarked.2 ⟨0, 2, _, by decide, hb, ha, hexempt, hleft⟩
  refine ⟨hk, hb, ha, hexempt, hmem, fun hl => ?_⟩
  have hu := (hruns false rfl (by decide) (by decide) rfl).1 hl
  rw [hunderway.2 ⟨hmem, by decide⟩] at hu
  cases hu

/-- A name that is tracked again, of which nothing is left in progress, is taken for one under
construction for good. -/
theorem refused_when_tracked_again :
    let m := fun k => run forgetful k (.ofMain ({} : Settings).registry () forgetfulMain)
    (m 3).making = [] ∧ (m 3).deed = .asked (.marks (.track "n" true)) ∧
      (m 4).making = [] ∧ (m 4).registry.store.finished["n"]? = none ∧
      (m 4).registry.store.closed = false ∧ (m 4).registry.marks.isUnderway "n" = true ∧
      (m 4).deed = .asked (.obtain "n" false) ∧
      (m 4).AnswersAfter forgetful 0 (.made (.error (.circularCreation "n"))) := by
  refine ⟨rfl, rfl, rfl, by decide, rfl, by decide, rfl, rfl, by decide⟩

end Forgetful

end Machine

end ObjectRegistry
