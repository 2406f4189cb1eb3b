import ObjectRegistry.Proofs.Between
import ObjectRegistry.Proofs.Erasure
import ObjectRegistry.Proofs.Sweeping
import ObjectRegistry.Proofs.TeardownOrder

namespace ObjectRegistry

variable {σ ρ κ : Type}

open Relation

namespace Registry

/-- Apart from its edges the registry is `r₀` without the names given. -/
structure Stripped (r₀ : Registry κ) (gone : List Name) (r : Registry κ) : Prop where
  links : r.links = r₀.links
  marks : r.marks = r₀.marks
  store : r.store = r₀.store.without gone
  disposers : r.disposers = r₀.disposers.without gone

variable {r r₀ : Registry κ} {gone : List Name} {n : Name}

theorem stripped_refl (r : Registry κ) : r.Stripped [] r where
  links := rfl
  marks := rfl
  store := (Store.without_eq_self (List.forall_mem_nil _)).symm
  disposers := (Disposers.without_eq_self (List.forall_mem_nil _)).symm

theorem Stripped.claim (h : r₀.Stripped gone r) (h₀ : r₀.store.filed.Nodup) (n : Name) :
    r₀.Stripped (n :: gone) (r.claim n) where
  links := h.links
  marks := h.marks
  store := (congrArg (·.drop n) h.store).trans (Store.drop_without h₀)
  disposers := (congrArg (·.erase n) h.disposers).trans Disposers.erase_without

theorem Stripped.alive (h : r₀.Stripped gone r) : r.Alive n ↔ r₀.Alive n ∧ n ∉ gone := by
  rw [← alive_without, Alive, Alive, h.store, h.disposers]
  exact Iff.rfl

theorem Stripped.eq_without (h : r₀.Stripped gone r) (he : r.edges = r₀.edges.without gone) :
    r = r₀.without gone := by
  obtain ⟨links, marks, store, edges, disposers⟩ := r
  obtain ⟨rfl, rfl, rfl, rfl⟩ := h
  rw [without, ← he]

end Registry

namespace Walk

variable {w w' : Walk κ} {r r' r₀ : Registry κ} {e₀ : Edges} {n root : Name}

/-- Of the names entered, those in `done` have had a task, and it is yet to come for the others. -/
structure TaskDone (w : Walk κ) (task : Name → Task κ) (done : List Name) : Prop where
  subset : done ⊆ w.visited
  toDo : ∀ {k}, k ∈ w.visited → k ∈ done ∨ task k ∈ w.tasks

section TaskDone

variable {task : Name → Task κ} {t : Task κ} {above rest : List (Task κ)}
  {visited done : List Name} {report report' : Report}

theorem TaskDone.cons (h : w.TaskDone task done) (hn : n ∈ w.visited) :
    w.TaskDone task (n :: done) where
  subset := List.cons_subset.2 ⟨hn, h.subset⟩
  toDo hk := (h.toDo hk).imp_left (List.mem_cons_of_mem n)

theorem TaskDone.other (h : TaskDone ⟨t :: rest, visited, report⟩ task done) (ht : ∀ k, task k ≠ t)
    (above : List (Task κ)) : TaskDone ⟨above ++ rest, visited, report'⟩ task done where
  subset := h.subset
  toDo {k} hk := (h.toDo hk).imp_right fun hmem =>
    List.mem_append_right _ (List.mem_of_ne_of_mem (ht k) hmem)

theorem TaskDone.paid (h : TaskDone ⟨task n :: rest, visited, report⟩ task done) (hn : n ∈ visited)
    (hinj : ∀ {k}, task k = task n → k = n) (above : List (Task κ)) :
    TaskDone ⟨above ++ rest, visited, report'⟩ task (n :: done) where
  subset := List.cons_subset.2 ⟨hn, h.subset⟩
  toDo hk := by
    obtain hk | ht := h.toDo hk
    · exact .inl (List.mem_cons_of_mem n hk)
    · obtain ht | ht := List.mem_cons.1 ht
      · exact .inl (hinj ht ▸ List.mem_cons_self)
      · exact .inr (List.mem_append_right _ ht)

theorem TaskDone.entered (h : TaskDone ⟨.enter n :: rest, visited, report⟩ task done)
    (ht : ∀ k, task k ≠ .enter n) (hn : task n ∈ above) :
    TaskDone ⟨above ++ rest, n :: visited, report'⟩ task done where
  subset := fun k hk => List.mem_cons_of_mem n (h.subset hk)
  toDo {k} hk := by
    obtain rfl | hk := List.mem_cons.1 hk
    · exact .inr (List.mem_append_left _ hn)
    · have hother : TaskDone ⟨above ++ rest, visited, report⟩ task done := h.other ht above
      exact hother.toDo hk

end TaskDone

/-- The edges are gone of the names that were entered, but for what is still to come. -/
def Tears (e₀ : Edges) (w : Walk κ) (e : Edges) : Prop :=
  ∃ opened gone, e₀.Torn w.visited opened gone e ∧
    w.TaskDone .contained opened ∧ w.TaskDone .forget gone

theorem Tears.quiet (h : w.Tears e₀ r.edges) (h₀ : e₀.Mirrored)
    (hs : ∀ {t}, t ∈ w.tasks → t.isRoot = false)
    (hv : ∀ {t n}, t ∈ w.tasks → t.entered? = some n → n ∈ w.visited) (hq : Quiet w r w' r') :
    w'.Tears e₀ r'.edges := by
  obtain ⟨opened, gone, htorn, hopened, hgone⟩ := h
  -- A task that takes edges does so for its own name, and no other task touches either account.
  cases hq with
  | start => nomatch hs List.mem_cons_self
  | sweep => nomatch hs List.mem_cons_self
  | again hn => exact ⟨opened, gone, htorn, hopened.other nofun [], hgone.other nofun []⟩
  | dispose outcome => exact ⟨opened, gone, htorn, hopened.other nofun [], hgone.other nofun []⟩
  | @contained _ n rest visited report =>
    have hn : n ∈ visited := hv List.mem_cons_self rfl
    exact ⟨n :: opened, gone, htorn.takeContained n,
      hopened.paid hn (fun hk => Task.contained.inj hk) _, hgone.other nofun _⟩
  | @forget _ n rest visited report =>
    have hn : n ∈ visited := hv List.mem_cons_self rfl
    exact ⟨n :: opened, n :: gone, htorn.forget h₀ hn, (hopened.other nofun []).cons hn,
      hgone.paid hn (fun hk => Task.forget.inj hk) []⟩
  | @enter _ n rest visited report hn =>
    have hmem {t : Task κ} (ht : t ∈ [.contained n, .forget n]) : t ∈ entryTasks r n :=
      List.mem_append_right _ (List.mem_cons_of_mem _ ht)
    rw [enter_eq]
    exact ⟨opened, gone, htorn.takeDependents n, hopened.entered nofun (hmem (by simp)),
      hgone.entered nofun (hmem (by simp))⟩

/-- What holds at every point of the teardown of `root` that was begun on the registry `r₀`. -/
structure Severs (root : Name) (r₀ : Registry κ) (w : Walk κ) (r : Registry κ) : Prop where
  orderly : Orderly r₀.edges w r
  covers : Covers r₀.edges r₀.Alive w r
  tears : w.Tears r₀.edges r.edges
  stripped : r₀.Stripped w.visited r
  led : ∀ {k}, k ∈ w.visited ∨ .enter k ∈ w.tasks → ReflTransGen r₀.edges.Leads root k
  rooted : root ∈ w.visited ∨ .enter root ∈ w.tasks
  told : ∀ {k}, w.Due k ∨ k ∈ w.report.destroyed → r₀.Alive k ∧ k ∈ w.visited
  claimed : w.Claims
  failed : ∀ entry ∈ w.report.failures, entry.1 ∈ w.report.destroyed

theorem severs_one (h₀ : r₀.Sound) (root : Name) : Severs root r₀ (.one root) r₀ where
  orderly := untouched_one.orderly
  covers := covers_one root r₀
  tears := ⟨[], [], h₀.edges.torn, ⟨List.Subset.refl _, nofun⟩, ⟨List.Subset.refl _, nofun⟩⟩
  stripped := r₀.stripped_refl
  led hk := by
    obtain hk | hk := hk
    · cases hk
    · cases List.mem_singleton.1 hk
      exact .refl
  rooted := .inr (List.mem_singleton_self _)
  told hk := by
    obtain ⟨callback, hk⟩ | hk := hk
    · cases List.mem_singleton.1 hk
    · cases hk
  claimed := untouched_one.claims
  failed := nofun

section Quiet

variable (h : Severs root r₀ w r) (hq : Quiet w r w' r')
include h hq

theorem Severs.stripped_quiet (h₀ : r₀.Sound) : r₀.Stripped w'.visited r' := by
  have hs := h.stripped
  cases hq with
  | start => nomatch h.covers.single List.mem_cons_self
  | sweep => nomatch h.covers.single List.mem_cons_self
  | again hn => exact hs
  | dispose outcome => exact hs
  | contained | forget => exact ⟨hs.links, hs.marks, hs.store, hs.disposers⟩
  | @enter _ n => exact hs.claim h₀.filed n

theorem Severs.led_quiet {k : Name} (hk : k ∈ w'.visited ∨ .enter k ∈ w'.tasks) :
    ReflTransGen r₀.edges.Leads root k := by
  have hled := @h.led
  have hrest {t : Task κ} {rest : List (Task κ)} {visited : List Name} :
      k ∈ visited ∨ .enter k ∈ rest → k ∈ visited ∨ .enter k ∈ t :: rest :=
    Or.imp_right (List.mem_cons_of_mem t)
  cases hq with
  | start => nomatch h.covers.single List.mem_cons_self
  | sweep => nomatch h.covers.single List.mem_cons_self
  | again hn => exact hled (hrest hk)
  | dispose outcome => exact hled (hrest hk)
  | forget => exact hled (hrest hk)
  | @contained _ n rest visited report =>
    obtain hk | hk := hk
    · exact hled (.inl hk)
    · obtain hk | hk := enter_mem_enters.1 hk
      · have hn : n ∈ visited := h.orderly.entered List.mem_cons_self rfl
        exact (hled (.inl hn)).tail (.inr ((h.orderly.fewer n).2.subset hk))
      · exact hled (.inr (List.mem_cons_of_mem _ hk))
  | @enter _ n rest visited report hn =>
    have hroot : ReflTransGen r₀.edges.Leads root n := hled (.inr List.mem_cons_self)
    obtain hk | hk := hk
    · obtain rfl | hk := List.mem_cons.1 hk
      · exact hroot
      · exact hled (.inl hk)
    · obtain hk | hk := enter_mem_enters.1 hk
      · exact hroot.tail (.inl ((h.orderly.fewer n).1.subset hk))
      · simp only [List.mem_cons, reduceCtorEq, false_or] at hk
        exact hled (.inr (List.mem_cons_of_mem _ hk))

theorem Severs.told_quiet {k : Name} (ho : Orderly r₀.edges w' r')
    (hk : w'.Due k ∨ k ∈ w'.report.destroyed) : r₀.Alive k ∧ k ∈ w'.visited := by
  have hold : w.Due k ∨ k ∈ w.report.destroyed → r₀.Alive k ∧ k ∈ w'.visited := fun hk =>
    ⟨(h.told hk).1, hq.visited_subset h.covers.single (h.told hk).2⟩
  obtain hk | hk := hk
  · obtain hdue | halive := hq.due hk
    · exact hold (.inl hdue)
    · obtain ⟨callback, hmem⟩ := hk
      exact ⟨(h.stripped.alive.1 halive).1, ho.entered hmem rfl⟩
  · obtain hk | ⟨callback, htasks⟩ := hq.reported_inv hk
    · exact hold (.inr hk)
    · exact hold (.inl ⟨callback, htasks ▸ List.mem_cons_self⟩)

theorem Severs.failed_quiet : ∀ entry ∈ w'.report.failures, entry.1 ∈ w'.report.destroyed := by
  have hfailed := h.failed
  cases hq with
  | start => exact hfailed
  | sweep => exact hfailed
  | again hn => exact hfailed
  | contained => exact hfailed
  | forget => exact hfailed
  | enter hn => exact hfailed
  | @dispose _ n callback claimed rest visited report outcome ho =>
    have hkeep : ∀ entry ∈ report.failures,
        entry.1 ∈ (report.settle n claimed outcome).destroyed := by
      intro entry hentry
      have hold := hfailed entry hentry
      cases claimed with
      | false => exact hold
      | true => exact List.mem_append_left _ hold
    cases outcome with
    | ok => exact hkeep
    | error fault =>
      cases callback with
      | none => cases ho rfl
      | some callback =>
        cases h.claimed List.mem_cons_self
        intro entry hentry
        obtain hentry | hentry := List.mem_append.1 hentry
        · exact hkeep entry hentry
        · rw [List.mem_singleton.1 hentry]
          exact List.mem_append_right _ (List.mem_singleton_self n)

theorem Severs.quiet (h₀ : r₀.Sound) : Severs root r₀ w' r' where
  orderly := h.orderly.quiet hq
  covers := h.covers.quiet h.orderly hq
  tears := h.tears.quiet h₀.edges h.covers.single h.orderly.entered hq
  stripped := h.stripped_quiet hq h₀
  led := h.led_quiet hq
  rooted := hq.entry h.covers.single h.rooted
  told := h.told_quiet hq (h.orderly.quiet hq)
  claimed := Claims.quiet h.claimed hq
  failed := h.failed_quiet hq

end Quiet

section Over

variable (h : Severs root r₀ w r) (hend : w.tasks = [])
include h hend

theorem Severs.mem_visited (k : Name) :
    k ∈ w.visited ↔ ReflTransGen r₀.edges.Leads root k := by
  have hnone {t : Task κ} : t ∉ w.tasks := hend ▸ List.not_mem_nil
  refine ⟨fun hk => h.led (.inl hk), fun hk => ?_⟩
  -- By induction on the path: with no task left, what a visited name leads to has been visited.
  induction hk with
  | refl => exact h.rooted.resolve_right hnone
  | tail _ hb ih =>
    obtain hb | hb := hb
    · exact (h.covers.dependents ih hb).resolve_right hnone
    · obtain hv | ht | ⟨ht, -⟩ := h.covers.contained ih hb
      · exact hv
      · exact absurd ht hnone
      · exact absurd ht hnone

theorem Severs.eq_without (h₀ : r₀.Sound) : r = r₀.without w.visited := by
  have hnone {t : Task κ} : t ∉ w.tasks := hend ▸ List.not_mem_nil
  obtain ⟨opened, gone, htorn, hopened, hgone⟩ := h.tears
  refine h.stripped.eq_without (htorn.eq_without h₀.edges (fun k => ?_) (fun k => ?_) ?_)
  · exact ⟨fun hk => hopened.subset hk, fun hk => (hopened.toDo hk).resolve_right hnone⟩
  · exact ⟨fun hk => hgone.subset hk, fun hk => (hgone.toDo hk).resolve_right hnone⟩
  · exact fun k hk s hs => (h.covers.dependents hk hs).resolve_right hnone

theorem Severs.mem_destroyed (k : Name) :
    k ∈ w.report.destroyed ↔ k ∈ w.visited ∧ r₀.Alive k := by
  refine ⟨fun hk => (h.told (.inr hk)).symm, fun ⟨hk, halive⟩ => ?_⟩
  obtain ha | ⟨callback, hdue⟩ | hd := h.covers.accounted halive
  · exact absurd ha (h.orderly.visited hk)
  · rw [hend] at hdue
    cases hdue
  · exact hd

end Over

theorem Quiets.severs (h₀ : r₀.Sound) (hq : Quiets (.one root) r₀ w r) : Severs root r₀ w r :=
  hq.keeps (severs_one h₀ root) fun h hq => h.quiet hq h₀

/-- A teardown that leaves the registry sound. It is that of one name, or it ends with a sweep. -/
def LeavesSound (w : Walk κ) (r : Registry κ) : Prop :=
  (∃ root r₀, r₀.Sound ∧ Severs root r₀ w r) ∨
    r.links.Built ∧ r.store.filed.Nodup ∧ w.Closing r

theorem LeavesSound.quiet (h : w.LeavesSound r) (hq : Quiet w r w' r') : w'.LeavesSound r' := by
  obtain ⟨root, r₀, h₀, h⟩ | ⟨hlinks, hfiled, hw⟩ := h
  · exact .inl ⟨root, r₀, h₀, h.quiet hq h₀⟩
  · refine .inr ⟨?_, ?_, hw.quiet hq⟩
    · cases hq <;> exact hlinks
    · cases hq with
      | sweep => exact List.nodup_nil
      | enter hn => exact hfiled.erase _
      | _ => exact hfiled

theorem LeavesSound.ended (h : w.LeavesSound r) (hend : w.tasks = []) : r.Sound := by
  obtain ⟨root, r₀, h₀, h⟩ | ⟨hlinks, hfiled, hw⟩ := h
  · rw [h.eq_without hend h₀]
    exact h₀.without _
  · refine ⟨hlinks, ?_, hfiled⟩
    rw [← hw.swept hend]
    exact Edges.mirrored_empty

end Walk

namespace Registry

theorem reliable_sound : Reliable (Request κ) (Sound (κ := κ)) Walk.LeavesSound where
  fresh := sound_fresh
  asked request h := h.asked request
  after ha ht h := h.after ha ht
  one n h := .inl ⟨n, _, h, Walk.severs_one h n⟩
  all d h := .inr ⟨h.links, h.filed, Walk.closing_all d⟩
  quiet h hq := h.quiet hq
  ended h hend := h.ended hend

end Registry

theorem Client.Discreet.callbacks {client : Client σ ρ κ} (hs : client.Discreet)
    (r : Registry κ) (n : Name) :
    (Walk.one n).Callbacks (fun callback => (client.disposer callback).Silent) r :=
  Walk.Callbacks.one fun entry _ => hs entry.2

namespace Machine

section Destroy

variable [Language ρ κ] {client : Client σ ρ κ} {m : Machine σ ρ κ} {n : Name}

theorem destroy_returns (hs : client.Discreet) (h₀ : m.registry.Sound)
    (hd : m.deed = .asked (.destroy n)) :
    ∃ report gone, m.Returns client (.report report) (m.registry.without gone) ∧
      (∀ k, k ∈ gone ↔ ReflTransGen m.registry.edges.Leads n k) ∧
      report.destroyed.Nodup ∧
      (∀ k, k ∈ report.destroyed ↔ k ∈ gone ∧ m.registry.Alive k) ∧
      ∀ entry ∈ report.failures, entry.1 ∈ report.destroyed := by
  obtain ⟨w, r, hq, hend, hret⟩ := tearDown_returns hd rfl (hs.callbacks m.registry n)
  have h := hq.severs h₀
  rw [h.eq_without hend h₀] at hret
  exact ⟨w.report, w.visited, hret, h.mem_visited hend, hq.nodup Walk.untouched_one,
    h.mem_destroyed hend, h.failed⟩

theorem destroy_of_not_mentioned (hs : client.Discreet) (h₀ : m.registry.Sound)
    (hd : m.deed = .asked (.destroy n)) (hn : ¬m.registry.Mentions n) :
    m.Returns client (.report {}) m.registry := by
  obtain ⟨⟨destroyed, failures⟩, gone, hret, hgone, -, hdestroyed, hfailed⟩ :=
    destroy_returns hs h₀ hd
  have honly : ∀ k ∈ gone, k = n := by
    intro k hk
    obtain rfl | ⟨s, hs, -⟩ := ReflTransGen.cases_head ((hgone k).1 hk)
    · rfl
    · exact absurd (.inr (.inl (Edges.mentions_of_leads hs))) hn
  have hnone : destroyed = [] := by
    refine List.eq_nil_iff_forall_not_mem.2 fun k hk => ?_
    obtain ⟨hk, halive⟩ := (hdestroyed k).1 hk
    obtain rfl := honly k hk
    exact hn halive.mentions
  subst hnone
  have hclean : failures = [] :=
    List.eq_nil_iff_forall_not_mem.2 fun entry hentry => List.not_mem_nil (hfailed entry hentry)
  subst hclean
  rwa [Registry.without_eq_self h₀.edges fun k hk => honly k hk ▸ hn] at hret

end Destroy

/-- The teardown of a name ends. It takes away all that is recorded of the names it leads to, along
dependents and contained names, and nothing else, and it reports those that had an object or a
destroy callback. The same again reports nothing and changes nothing. -/
theorem destroy_removes_closure {client : Client σ (Request κ) κ} (hs : client.Discreet)
    {m : Machine σ (Request κ) κ} (hm : m.Reachable client) {name : Name}
    (hd : m.deed = .asked ((Request.destroy name).resolve m.registry.links)) :
    ∃ report gone, m.Returns client (.report report) (m.registry.without gone) ∧
      (∀ k, k ∈ gone ↔
        ReflTransGen m.registry.edges.Leads (m.registry.links.canonical name) k) ∧
      report.destroyed.Nodup ∧
      (∀ k, k ∈ report.destroyed ↔ k ∈ gone ∧ m.registry.Alive k) ∧
      (∀ k ∈ gone, ¬(m.registry.without gone).Mentions k) ∧
      ∀ m' : Machine σ (Request κ) κ, m'.registry = m.registry.without gone →
        m'.deed = .asked ((Request.destroy name).resolve m'.registry.links) →
        m'.Returns client (.report {}) m'.registry := by
  have h₀ : m.registry.Sound := hm.relies Registry.reliable_sound hs hd
  obtain ⟨report, gone, hret, hgone, hnodup, hdestroyed, -⟩ := destroy_returns hs h₀ hd
  have hclear : ∀ k ∈ gone, ¬(m.registry.without gone).Mentions k :=
    fun k hk => Registry.not_mentions_without hk
  refine ⟨report, gone, hret, hgone, hnodup, hdestroyed, hclear, fun m' hr hd' => ?_⟩
  refine destroy_of_not_mentioned hs (hr ▸ h₀.without gone) hd' ?_
  rw [hr]
  exact hclear _ ((hgone _).2 .refl)

section Knotted

def failing : Client Unit (Request Bool) Bool where
  factory _ := return .ok ⟨0, .unit⟩
  early _ := return ⟨0, .unit⟩
  disposer panics := if panics then .panic ⟨none⟩ else .done (.error .emptyName)
  hear _ memory := memory

theorem failing_discreet : failing.Discreet := by
  intro panics
  cases panics <;> exact trivial

def knotted : Machine Unit (Request Bool) Bool :=
  run failing 9 (.ofMain ({} : Settings).registry () (do
    let _ ← .ask (.install "b" ⟨0, .unit⟩)
    let _ ← .ask (.addDependency "a" "b")
    let _ ← .ask (.addDependency "b" "a")
    let _ ← .ask (.addDependency "a" "a")
    let _ ← .ask (.addContainment "b" "c")
    let _ ← .ask (.addDependency "d" "c")
    let _ ← .ask (.onDestroy "c" true)
    let _ ← .ask (.onDestroy "d" false)
    let _ ← .ask (.link "a" "aka")
    let _ ← .ask (.destroy "aka")))

theorem knotted_leads {k : Name} (hk : ReflTransGen knotted.registry.edges.Leads "a" k) :
    k ∈ ["a", "b", "c"] := by
  induction hk with
  | refl => exact List.mem_cons_self
  | tail _ hb ih =>
    have hall : ∀ a ∈ ["a", "b", "c"],
        (∀ b ∈ knotted.registry.edges.dependentsOf a, b ∈ ["a", "b", "c"]) ∧
          ∀ b ∈ knotted.registry.edges.containedIn a, b ∈ ["a", "b", "c"] := by decide
    exact hb.elim ((hall _ ih).1 _) ((hall _ ih).2 _)

theorem destroy_removes_closure_knotted :
    failing.Discreet ∧ knotted.Reachable failing ∧
      knotted.deed = .asked ((Request.destroy "aka").resolve knotted.registry.links) ∧
      ∃ report gone, knotted.Returns failing (.report report) (knotted.registry.without gone) ∧
        "c" ∈ gone ∧ "d" ∉ gone ∧ "b" ∈ report.destroyed ∧ "a" ∉ report.destroyed := by
  have hr : knotted.Reachable failing := ⟨{}, (), _, 9, rfl⟩
  have hd : knotted.deed = .asked ((Request.destroy "aka").resolve knotted.registry.links) := rfl
  obtain ⟨report, gone, hret, hgone, -, hdestroyed, -, -⟩ :=
    destroy_removes_closure failing_discreet hr hd
  have hb : ReflTransGen knotted.registry.edges.Leads "a" "b" := .single (.inl (by decide))
  have hc : ReflTransGen knotted.registry.edges.Leads "a" "c" := hb.tail (.inr (by decide))
  refine ⟨failing_discreet, hr, hd, report, gone, hret, (hgone "c").2 hc, fun h => ?_,
    (hdestroyed "b").2 ⟨(hgone "b").2 hb, .inl (by decide)⟩, fun h => ?_⟩
  · exact absurd (knotted_leads ((hgone "d").1 h)) (by decide)
  · obtain halive | halive := ((hdestroyed "a").1 h).2
    · exact absurd halive (by decide)
    · exact absurd halive (by decide)

end Knotted

end Machine

end ObjectRegistry
