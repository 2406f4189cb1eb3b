import ObjectRegistry.Proofs.History

namespace ObjectRegistry.Machine

variable {σ ρ κ : Type} [Language ρ κ] {client : Client σ ρ κ} {m m' m'' : Machine σ ρ κ}

section Frames

variable {duty : Duty κ} {below : List (Duty κ)} {a : Answer}

theorem frame_step {above : List (Duty κ)} (hm : m.duties = above ++ duty :: below)
    (h : m.step client = some m') :
    m.deed.ends? = some duty ∧ m'.duties = below ∨ ∃ above, m'.duties = above ++ duty :: below := by
  cases he : m.deed.ends? with
  | some ended =>
    rw [duties_of_ends h he] at hm
    cases above with
    | nil =>
      obtain ⟨rfl, hb⟩ := List.cons.inj hm
      exact .inl ⟨rfl, hb⟩
    | cons top above => exact .inr ⟨above, (List.cons.inj hm).2⟩
  | none =>
    cases hl : m.registry.launch? m.deed with
    | some launch =>
      exact .inr ⟨launch.1 :: above, by rw [duties_of_launch h hl, hm, List.cons_append]⟩
    | none => exact .inr ⟨above, by rw [duties_of_stay h he hl, hm]⟩

theorem gives_of_ne {depth : Nat} (h : m.step client = some m') (hd : m'.duties.length ≠ depth) :
    m.gives client depth = none := by
  rw [gives, h]
  exact if_neg hd

theorem gives_of_reply (h : m.step client = some m') (ha : m.registry.reply? m.deed = some a) :
    m.gives client m'.duties.length = some a := by
  rw [gives, h]
  simp only [↓reduceIte, ha]

theorem gives_inv {depth : Nat} (h : m.gives client depth = some a) :
    ∃ m', m.step client = some m' ∧ m'.duties.length = depth ∧
      m.registry.reply? m.deed = some a := by
  rw [gives] at h
  split at h
  · case h_1 m' hs =>
    obtain ⟨hd, ha⟩ := Option.ite_none_right_eq_some.1 h
    exact ⟨m', hs, hd, ha⟩
  · cases h

theorem frame_run (hend : ∀ (r : Registry κ) d, d.ends? = some duty → (r.reply? d).isSome)
    (hm : m.duties = duty :: below) {k : Nat}
    (hk : ∀ j < k, (run client j m).gives client below.length = none) :
    ∃ above, (run client k m).duties = above ++ duty :: below := by
  refine run_keeps (P := fun m => ∃ above, m.duties = above ++ duty :: below) ⟨[], hm⟩ ?_
  rintro j hj m' ⟨above, ha⟩ h
  obtain ⟨he, hb⟩ | hb := frame_step ha h
  · obtain ⟨a, ha⟩ := Option.isSome_iff_exists.1 (hend _ _ he)
    have hg := gives_of_reply h ha
    rw [hb, hk j hj] at hg
    cases hg
  · exact hb

theorem ends_of_answersAfter {callback : κ} {k : Nat}
    (hend : ∀ (r : Registry κ) d, d.ends? = some duty → (r.reply? d).isSome)
    (hl : m.registry.launch? m.deed = some (duty, callback)) (ha : m.AnswersAfter client k a) :
    (run client k m).deed.ends? = some duty ∧
      (run client k m).registry.reply? (run client k m).deed = some a := by
  obtain ⟨hk, hbefore⟩ := ha
  cases hs : m.step client with
  | none =>
    rw [run_of_stop hs, gives, hs] at hk
    cases hk
  | some m₁ =>
    have hd := duties_of_launch hs hl
    cases k with
    | zero =>
      rw [run_zero, gives_of_ne hs (by rw [hd, List.length_cons]; omega)] at hk
      cases hk
    | succ k =>
      rw [run_succ_of_step hs] at hk ⊢
      obtain ⟨above, hab⟩ := frame_run hend hd (k := k) fun j hj => by
        rw [← run_succ_of_step hs]
        exact hbefore (j + 1) (Nat.succ_lt_succ hj)
      obtain ⟨m₂, hs', hlen, hreply⟩ := gives_inv hk
      obtain ⟨he, -⟩ | ⟨above', hab'⟩ := frame_step hab hs'
      · exact ⟨he, hreply⟩
      · simp only [hab', List.length_append, List.length_cons] at hlen
        omega

theorem answer_of_launch {callback : κ}
    (hend : ∀ (r : Registry κ) d, d.ends? = some duty → (r.reply? d).isSome)
    (hl : m.registry.launch? m.deed = some (duty, callback)) (ha : m.Answers client a) :
    ∃ m' : Machine σ ρ κ, m'.deed.ends? = some duty ∧ m'.registry.reply? m'.deed = some a := by
  obtain ⟨k, hk⟩ := ha
  exact ⟨_, ends_of_answersAfter hend hl hk⟩

theorem Reachable.step_of_ends (hm : m.Reachable client)
    (he : m.deed.ends? = some duty) : ∃ m', m.step client = some m' := by
  have hmain : ∃ above, m.duties = above ++ [.main] := by
    refine hm.keeps (P := fun m => ∃ above, m.duties = above ++ [.main])
      (fun settings memory main => ⟨[], rfl⟩) ?_
    rintro m m' ⟨above, ha⟩ h
    obtain ⟨hends, -⟩ | hd := frame_step ha h
    · cases hd : m.deed <;> rw [hd] at hends <;> cases hends
    · exact hd
  obtain ⟨above, ha⟩ := hmain
  obtain ⟨r, memory, activity, callers⟩ := m
  cases activity with
  | tearDown walk => cases he
  | code running program =>
    cases running with
    | main => cases program <;> cases he
    | dispose k claimed rest =>
      cases program with
      | done | panic => exact ⟨_, rfl⟩
      | access | call => cases he
    | construct | expose =>
      cases callers with
      | nil =>
        obtain - | ⟨top, above⟩ := above
        · cases ha
        · exact absurd (List.cons.inj ha).2.symm (List.append_ne_nil_of_right_ne_nil _ nofun)
      | cons caller callers =>
        cases program with
        | done | panic => exact ⟨_, rfl⟩
        | access | call => cases he

end Frames

section Steps

variable {r r' : Registry κ} {memory : σ} {duty : Duty κ} {request : ρ} {n : Name}
  {next : Answer → Program σ ρ duty.Result} {callers : List (Caller σ ρ κ)}

theorem step_reply {a : Answer} {events : List Event}
    (hs : r.start (Language.meaning r.links request) = .reply a r' events) :
    step client ⟨r, memory, .code duty (.call request next), callers⟩ =
      some ⟨r', remember client events memory, .code duty (next a), callers⟩ := by
  simp only [step, hs, begin, answer]

theorem step_construct {ownsWindow : Bool} {factory : κ}
    (hs : r.start (Language.meaning r.links request) = .construct n ownsWindow factory r') :
    step client ⟨r, memory, .code duty (.call request next), callers⟩ =
      some ⟨r', remember client [.creationStarted n] memory,
        .code (.construct n ownsWindow) (client.factory factory), ⟨duty, next⟩ :: callers⟩ := by
  simp only [step, hs, begin]

theorem step_expose {purpose : Purpose} {early : κ}
    (hs : r.start (Language.meaning r.links request) = .expose n purpose early r') :
    step client ⟨r, memory, .code duty (.call request next), callers⟩ =
      some ⟨r', memory, .code (.expose n purpose) (client.early early),
        ⟨duty, next⟩ :: callers⟩ := by
  simp only [step, hs, begin]

end Steps

/-- A stretch of a run from one machine to another, with the callbacks it starts. Each machine on
the way, the last one apart, has the property `P`. -/
inductive Trail (client : Client σ ρ κ) (P : Machine σ ρ κ → Prop) :
    Machine σ ρ κ → List (Duty κ × κ) → Machine σ ρ κ → Prop where
  | stay (m : Machine σ ρ κ) : Trail client P m [] m
  | step {m m' m'' : Machine σ ρ κ} {launches : List (Duty κ × κ)} (hm : P m)
      (h : m.step client = some m') (rest : Trail client P m' launches m'') :
      Trail client P m ((m.registry.launch? m.deed).toList ++ launches) m''

namespace Trail

variable {P Q : Machine σ ρ κ → Prop} {l l' : List (Duty κ × κ)}

theorem cons {o : Option (Duty κ × κ)} (hm : P m) (h : m.step client = some m')
    (hl : m.registry.launch? m.deed = o) (rest : Trail client P m' l m'') :
    Trail client P m (o.toList ++ l) m'' :=
  hl ▸ .step hm h rest

theorem trans (h : Trail client P m l m') (h' : Trail client P m' l' m'') :
    Trail client P m (l ++ l') m'' := by
  induction h with
  | stay => exact h'
  | step hm hs _ ih =>
    rw [List.append_assoc]
    exact .step hm hs (ih h')

theorem mono (hPQ : ∀ m, P m → Q m) (h : Trail client P m l m') : Trail client Q m l m' := by
  induction h with
  | stay m => exact .stay m
  | step hm hs _ ih => exact .step (hPQ _ hm) hs ih

theorem run (h : Trail client P m l m') :
    ∃ k, Machine.run client k m = m' ∧ launches client k m = l ∧
      ∀ j < k, P (Machine.run client j m) := by
  induction h with
  | stay m => exact ⟨0, rfl, rfl, fun j hj => absurd hj (Nat.not_lt_zero j)⟩
  | step hm hs _ ih =>
    obtain ⟨k, hk, hl, hP⟩ := ih
    refine ⟨k + 1, by rw [run_succ_of_step hs, hk], by rw [launches_succ hs, hl], fun j hj => ?_⟩
    cases j with
    | zero => exact hm
    | succ j =>
      rw [run_succ_of_step hs]
      exact hP j (Nat.lt_of_succ_lt_succ hj)

theorem run_step (h : Trail client P m l m') (hm' : P m') (hs : m'.step client = some m'') :
    ∃ k, Machine.run client k m = m' ∧ Machine.run client (k + 1) m = m'' ∧
      launches client (k + 1) m = l ++ (m'.registry.launch? m'.deed).toList ∧
      ∀ j ≤ k, P (Machine.run client j m) := by
  induction h with
  | stay m =>
    refine ⟨0, rfl, run_succ_of_step hs 0, by rw [launches_succ hs, launches, List.append_nil]; rfl,
      fun j hj => ?_⟩
    rwa [Nat.le_zero.1 hj]
  | step hm h _ ih =>
    obtain ⟨k, hk, hk', hl, hP⟩ := ih hm' hs
    refine ⟨k + 1, by rw [run_succ_of_step h, hk], by rw [run_succ_of_step h, hk'],
      by rw [launches_succ h, hl, List.append_assoc], fun j hj => ?_⟩
    cases j with
    | zero => exact hm
    | succ j =>
      rw [run_succ_of_step h]
      exact hP j (Nat.le_of_succ_le_succ hj)

section Answer

variable {m₁ m₂ m₃ : Machine σ ρ κ} {a : Answer} (h : m.step client = some m₁)
  (ht : Trail client (fun x => m.duties.length < x.duties.length) m₁ l m₂)
  (h₂ : m₂.step client = some m₃) (hm₂ : m.duties.length < m₂.duties.length)
  (hm₃ : m₃.duties.length = m.duties.length) (ha : m₂.registry.reply? m₂.deed = some a)
include h ht h₂ hm₂ hm₃ ha

theorem answersAfter :
    ∃ k, m.AnswersAfter client k a ∧ Machine.run client (k + 1) m = m₃ ∧
      launches client (k + 1) m =
        (m.registry.launch? m.deed).toList ++ (l ++ (m₂.registry.launch? m₂.deed).toList) := by
  obtain ⟨k, hk, hk', hl, hdeep⟩ := ht.run_step hm₂ h₂
  refine ⟨k + 1, ⟨?_, fun j hj => ?_⟩, by rw [run_succ_of_step h, hk'], by rw [launches_succ h, hl]⟩
  · rw [run_succ_of_step h, hk, ← hm₃]
    exact gives_of_reply h₂ ha
  · cases hs : (Machine.run client j m).step client with
    | none => rw [gives, hs]
    | some m' =>
      have hnext : m' = Machine.run client j m₁ := by
        rw [← run_succ_of_step h, run_succ, hs, Option.getD_some]
      refine gives_of_ne hs ?_
      have := hdeep j (Nat.le_of_lt_succ hj)
      rw [hnext]
      omega

theorem answers : m.Answers client a := by
  obtain ⟨k, hk, -⟩ := answersAfter h ht h₂ hm₂ hm₃ ha
  exact ⟨k, hk⟩

end Answer

end Trail

section Reseats

omit [Language ρ κ]

/-- `R` relates machines that differ in nothing but the programs that wait at the bottom, and it
relates them still when these programs are answered. -/
structure Reseats (client : Client σ ρ κ) (R : Machine σ ρ κ → Machine σ ρ κ → Prop)
    (below below' : List (Caller σ ρ κ)) : Prop where
  above : ∀ r memory activity upper,
    R ⟨r, memory, activity, upper ++ below⟩ ⟨r, memory, activity, upper ++ below'⟩
  answered : ∀ r memory activity r' events a,
    Option.Rel R (answer client ⟨r, memory, activity, below⟩ r' events a)
      (answer client ⟨r, memory, activity, below'⟩ r' events a)

namespace Reseats

variable {R : Machine σ ρ κ → Machine σ ρ κ → Prop} {below below' : List (Caller σ ρ κ)}
  (h : Reseats client R below below') (r : Registry κ) (memory : σ) (activity : Activity σ ρ κ)
  (upper : List (Caller σ ρ κ))
include h

theorem answer (r' : Registry κ) (events : List Event) (a : Answer) :
    Option.Rel R (Machine.answer client ⟨r, memory, activity, upper ++ below⟩ r' events a)
      (Machine.answer client ⟨r, memory, activity, upper ++ below'⟩ r' events a) := by
  cases upper with
  | nil => exact h.answered r memory activity r' events a
  | cons caller upper => exact .some (h.above r' _ (.code caller.duty (caller.resume a)) upper)

theorem begin (o : Outset κ) :
    Option.Rel R (Machine.begin client ⟨r, memory, activity, upper ++ below⟩ o)
      (Machine.begin client ⟨r, memory, activity, upper ++ below'⟩ o) := by
  cases o with
  | reply a r' events => exact h.answer r memory activity upper r' events a
  | construct k ownsWindow factory r' => exact .some (h.above _ _ _ upper)
  | expose k purpose early r' => exact .some (h.above _ _ _ upper)
  | tearDown walk r' events => exact .some (h.above _ _ _ upper)

theorem finish (duty : Duty κ) (result : duty.Result) :
    Option.Rel R (Machine.finish client ⟨r, memory, activity, upper ++ below⟩ duty result)
      (Machine.finish client ⟨r, memory, activity, upper ++ below'⟩ duty result) := by
  cases duty with
  | main => exact .none
  | construct k ownsWindow => exact h.answer r memory activity upper _ _ _
  | expose k purpose => exact h.answer r memory activity upper _ _ _
  | dispose k claimed walk => exact .some (h.above _ _ _ upper)

theorem unwind (duty : Duty κ) (p : Panic) :
    Option.Rel R (Machine.unwind client ⟨r, memory, activity, upper ++ below⟩ p duty)
      (Machine.unwind client ⟨r, memory, activity, upper ++ below'⟩ p duty) := by
  cases duty with
  | main => exact .none
  | construct k ownsWindow => exact h.answer r memory activity upper _ _ _
  | expose k purpose => exact h.answer r memory activity upper _ _ _
  | dispose k claimed walk => exact .some (h.above _ _ _ upper)

theorem step [Language ρ κ] :
    Option.Rel R (Machine.step client ⟨r, memory, activity, upper ++ below⟩)
      (Machine.step client ⟨r, memory, activity, upper ++ below'⟩) := by
  cases activity with
  | code duty program =>
    cases program with
    | done result => exact h.finish r memory _ upper duty result
    | panic p => exact h.unwind r memory _ upper duty p
    | access change next => exact .some (h.above _ _ _ upper)
    | call request next => exact h.begin r memory _ (⟨duty, next⟩ :: upper) _
  | tearDown walk =>
    simp only [Machine.step]
    cases walk.turn r with
    | «over» => exact h.answer r memory _ upper _ _ _
    | moved walk' r' events => exact .some (h.above _ _ _ upper)
    | ask k callback claimed walk' => exact .some (h.above _ _ _ upper)

end Reseats

end Reseats

end ObjectRegistry.Machine
