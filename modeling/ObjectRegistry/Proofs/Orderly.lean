import Mathlib.Logic.Relation
import ObjectRegistry.Proofs.Quiet

namespace ObjectRegistry

variable {κ : Type}

namespace Edges

def Leads (e : Edges) (a b : Name) : Prop := b ∈ e.dependentsOf a ∨ b ∈ e.containedIn a

/-- Some dependent of `y` leads to `x` without passing `y`. -/
def Undercuts (e : Edges) (y x : Name) : Prop :=
  ∃ d ∈ e.dependentsOf y, d ≠ y ∧ Relation.ReflTransGen (fun a b => e.Leads a b ∧ b ≠ y) d x

variable {e : Edges} {x y : Name}

theorem Undercuts.ne (h : e.Undercuts y x) : x ≠ y := by
  obtain ⟨d, -, hd, hp⟩ := h
  cases hp with
  | refl => exact hd
  | tail _ hx => exact hx.2

theorem Undercuts.tail {z : Name} (h : e.Undercuts y x) (hx : e.Leads x z) (hz : z ≠ y) :
    e.Undercuts y z := by
  obtain ⟨d, hd, hne, hp⟩ := h
  exact ⟨d, hd, hne, hp.tail ⟨hx, hz⟩⟩

def Acyclic (e : Edges) : Prop := ∀ n, ¬Relation.TransGen (fun a b => b ∈ e.dependentsOf a) n n

theorem Acyclic.not_undercuts (h : e.Acyclic) (hc : ∀ n, e.containedIn n = [])
    (hy : y ∈ e.dependentsOf x) : ¬e.Undercuts y x := by
  rintro ⟨d, hd, -, hp⟩
  have hpath : Relation.ReflTransGen (fun a b => b ∈ e.dependentsOf a) d x := by
    refine Relation.ReflTransGen.mono (fun a b hab => hab.1.resolve_right fun hb => ?_) _ _ hp
    rw [hc] at hb
    cases hb
  exact h y ((Relation.TransGen.head' hd hpath).tail hy)

theorem acyclic_of_rank (rank : Name → Nat)
    (h : ∀ a b, b ∈ e.dependentsOf a → rank a < rank b) : e.Acyclic := by
  intro n hn
  have hlt : ∀ {b}, Relation.TransGen (fun a b => b ∈ e.dependentsOf a) n b → rank n < rank b := by
    intro b hb
    induction hb with
    | single hb => exact h _ _ hb
    | tail _ hb ih => exact Nat.lt_trans ih (h _ _ hb)
  exact Nat.lt_irrefl _ (hlt hn)

theorem undercuts_of_dependent (h : x ∈ e.dependentsOf y) (hx : x ≠ y) : e.Undercuts y x :=
  ⟨x, h, hx, .refl⟩

end Edges

theorem Disposers.has_erase (d : Disposers κ) (n k : Name) :
    (d.erase n).has k = true ↔ d.has k = true ∧ k ≠ n := by
  simp only [has, find?, erase, List.lookup_isSome_iff, List.mem_filter, decide_eq_true_eq,
    beq_iff_eq]
  constructor
  · rintro ⟨entry, ⟨hmem, hne⟩, rfl⟩
    exact ⟨⟨entry, hmem, rfl⟩, hne⟩
  · rintro ⟨⟨entry, hmem, rfl⟩, hne⟩
    exact ⟨entry, ⟨hmem, hne⟩, rfl⟩

namespace Registry

variable {r : Registry κ} {n k : Name}

def Alive (r : Registry κ) (n : Name) : Prop :=
  r.store.holds n = true ∨ r.disposers.has n = true

theorem alive_claim : (r.claim n).Alive k ↔ r.Alive k ∧ k ≠ n := by
  have hs : (r.claim n).store.holds k = true ↔ r.store.holds k = true ∧ k ≠ n := by
    simp only [claim, Store.drop, Store.holds, Std.ExtTreeMap.contains_eq_isSome_getElem?,
      NameMap.getElem?_erase]
    by_cases hn : n = k
    · simp only [hn, ↓reduceIte, Option.isSome_none, Bool.false_eq_true, ne_eq,
        not_true_eq_false, and_false]
    · simp only [hn, ↓reduceIte, ne_eq, Ne.symm hn, not_false_eq_true, and_true]
  rw [Alive, hs, show (r.claim n).disposers.has k = true ↔ _ from r.disposers.has_erase n k, Alive]
  constructor
  · rintro (⟨h, hne⟩ | ⟨h, hne⟩)
    · exact ⟨.inl h, hne⟩
    · exact ⟨.inr h, hne⟩
  · rintro ⟨h | h, hne⟩
    · exact .inl ⟨h, hne⟩
    · exact .inr ⟨h, hne⟩

theorem not_alive_sweep : ¬r.sweep.Alive k := by
  rintro (h | h)
  · rw [Store.holds, Std.ExtTreeMap.contains_eq_isSome_getElem?] at h
    change (∅ : NameMap Handle)[k]?.isSome = true at h
    rw [NameMap.getElem?_empty] at h
    cases h
  · cases h

end Registry

namespace Task

def isRoot : Task κ → Bool
  | .start _ | .sweep => true
  | _ => false

def entered? : Task κ → Option Name
  | .dispose n _ _ | .contained n | .forget n => some n
  | _ => none

/-- A task that may stand over the disposal of `y`. -/
def Under (e : Edges) (y : Name) : Task κ → Prop
  | .enter n => n = y ∨ e.Undercuts y n
  | .dispose n _ _ | .contained n | .forget n => e.Undercuts y n
  | .start _ | .sweep => False

def Over (e : Edges) (t : Task κ) : Task κ → Prop
  | .dispose y _ _ => t.Under e y
  | .contained n => t.isRoot = false ∧ t ≠ .forget n
  | .forget _ => t.isRoot = false
  | .enter _ | .start _ | .sweep => True

variable {e : Edges} {t u : Task κ} {n y : Name}

theorem over_of_not_entered (h : u.entered? = none) : t.Over e u := by
  cases u with
  | dispose | contained | forget => cases h
  | enter | start | sweep => trivial

theorem Over.not_entered (h : t.Over e u) (ht : t.isRoot = true) : u.entered? = none := by
  cases u with
  | enter | start | sweep => rfl
  | contained k => exact absurd (ht.symm.trans h.1) (by decide)
  | forget k => exact absurd (ht.symm.trans h) (by decide)
  | dispose k callback claimed =>
    cases t with
    | start | sweep => cases h
    | enter | dispose | contained | forget => cases ht

theorem pairwise_enters {names : List Name} {rest : List (Task κ)}
    (hrest : rest.Pairwise (Over e)) (h : ∀ s ∈ names, ∀ u ∈ rest, (Task.enter s).Over e u) :
    (names.map Task.enter ++ rest).Pairwise (Over e) := by
  rw [List.pairwise_append]
  refine ⟨?_, hrest, ?_⟩
  · rw [List.pairwise_map]
    exact List.pairwise_of_forall fun _ _ => trivial
  · intro t ht u hu
    obtain ⟨s, hs, rfl⟩ := List.mem_map.1 ht
    exact h s hs u hu

end Task

namespace Walk

/-- What holds at every point of a teardown of a registry that had the edges `e`. -/
structure Orderly (e : Edges) (w : Walk κ) (r : Registry κ) : Prop where
  fewer : r.edges.Fewer e
  kept : ∀ {x y}, r.Alive x → r.Alive y → y ∈ e.dependentsOf x → y ∈ r.edges.dependentsOf x
  visited : ∀ {n}, n ∈ w.visited → ¬r.Alive n
  entered : ∀ {t n}, t ∈ w.tasks → t.entered? = some n → n ∈ w.visited
  stacked : w.tasks.Pairwise (Task.Over e)

variable {e : Edges} {w w' : Walk κ} {r r' : Registry κ} {n : Name}

theorem Quiet.alive (h : Quiet w r w' r') (hn : r'.Alive n) : r.Alive n := by
  cases h with
  | start => exact hn
  | again hv => exact hn
  | enter hv => exact (Registry.alive_claim.1 hn).1
  | dispose outcome => exact hn
  | contained => exact hn
  | forget => exact hn
  | sweep => exact absurd hn Registry.not_alive_sweep

theorem Orderly.over_rest {rest : List (Task κ)} {visited : List Name} {report : Report}
    (h : Orderly e ⟨.enter n :: rest, visited, report⟩ r) (hn : n ∉ visited) (t : Task κ)
    (ht : t.isRoot = false) (hunder : ∀ {y}, e.Undercuts y n → t.Under e y)
    (hforget : ∀ {k}, t = .forget k → k = n) {u : Task κ} (hu : u ∈ rest) : t.Over e u := by
  have hover := (List.pairwise_cons.1 h.stacked).1 u hu
  have hmem : u ∈ Task.enter n :: rest := List.mem_cons_of_mem _ hu
  cases u with
  | enter | start | sweep => trivial
  | forget k => exact ht
  | contained k =>
    refine ⟨ht, fun hk => hn ?_⟩
    rw [← hforget hk]
    exact h.entered hmem rfl
  | dispose y callback claimed =>
    obtain rfl | hy := hover
    · exact absurd (h.entered hmem rfl) hn
    · exact hunder hy

theorem Orderly.stacked_enter {rest : List (Task κ)} {visited : List Name} {report : Report}
    (h : Orderly e ⟨.enter n :: rest, visited, report⟩ r) (hn : n ∉ visited) :
    (Walk.enter ⟨rest, visited, report⟩ r n).tasks.Pairwise (Task.Over e) := by
  have hrest := (List.pairwise_cons.1 h.stacked).2
  apply Task.pairwise_enters
  · simp only [List.pairwise_cons, List.forall_mem_cons]
    refine ⟨⟨⟨rfl, fun h => by cases h⟩, rfl, fun u hu => ?_⟩, ⟨rfl, fun u hu => ?_⟩,
      fun u hu => ?_, hrest⟩
    · exact h.over_rest hn (.dispose n _ _) rfl (fun hy => hy) (fun hk => by cases hk) hu
    · exact h.over_rest hn (.contained n) rfl (fun hy => hy) (fun hk => by cases hk) hu
    · exact h.over_rest hn (.forget n) rfl (fun hy => hy) (fun hk => by cases hk; rfl) hu
  · intro d hd
    have hde : d ∈ e.dependentsOf n := (h.fewer n).1.subset hd
    simp only [List.forall_mem_cons]
    refine ⟨?_, ⟨rfl, fun h => by cases h⟩, rfl, fun u hu => ?_⟩
    · by_cases hdn : d = n
      · exact .inl hdn
      · exact .inr (Edges.undercuts_of_dependent hde hdn)
    · refine h.over_rest hn (.enter d) rfl (fun {y} hy => ?_) (fun hk => by cases hk) hu
      by_cases hdy : d = y
      · exact .inl hdy
      · exact .inr (hy.tail (.inl hde) hdy)

theorem Orderly.stacked_contained {rest : List (Task κ)} {visited : List Name} {report : Report}
    (h : Orderly e ⟨.contained n :: rest, visited, report⟩ r) :
    ((r.edges.containedIn n).map Task.enter ++ rest).Pairwise (Task.Over e) := by
  obtain ⟨hover, hrest⟩ := List.pairwise_cons.1 h.stacked
  apply Task.pairwise_enters hrest
  intro s hs u hu
  have hse : s ∈ e.containedIn n := (h.fewer n).2.subset hs
  have hu := hover u hu
  cases u with
  | enter | start | sweep => trivial
  | forget k => rfl
  | contained k => exact ⟨rfl, fun hk => by cases hk⟩
  | dispose y callback claimed =>
    by_cases hsy : s = y
    · exact .inl hsy
    · exact .inr (hu.tail (.inr hse) hsy)

theorem Orderly.entered_quiet (h : Orderly e w r) (hq : Quiet w r w' r')
    (hv : w.visited ⊆ w'.visited) {t : Task κ} {n : Name} (ht : t ∈ w'.tasks)
    (hn : t.entered? = some n) : n ∈ w'.visited := by
  obtain ht | ⟨k, rfl⟩ | ⟨k, _, -, -, hk, rfl | rfl | rfl⟩ := hq.mem_tasks_inv ht
  · exact hv (h.entered ht hn)
  · cases hn
  all_goals
    cases hn
    exact hk

theorem Orderly.quiet (h : Orderly e w r) (hq : Quiet w r w' r') : Orderly e w' r' := by
  have hfewer := hq.fewer.trans h.fewer
  have hentered {t : Task κ} {n : Name} (hv : w.visited ⊆ w'.visited) :=
    h.entered_quiet hq hv (t := t) (n := n)
  cases hq with
  | @start _ n rest visited report =>
    obtain ⟨hover, hrest⟩ := List.pairwise_cons.1 h.stacked
    refine ⟨hfewer, h.kept, fun hn => absurd hn List.not_mem_nil, fun ht hn => ?_, ?_⟩
    · obtain rfl | ht := List.mem_cons.1 ht
      · cases hn
      · rw [(hover _ ht).not_entered rfl] at hn
        cases hn
    · exact List.pairwise_cons.2
        ⟨fun u hu => Task.over_of_not_entered ((hover u hu).not_entered rfl), hrest⟩
  | again hv | dispose outcome =>
    exact ⟨hfewer, h.kept, h.visited, hentered (List.Subset.refl _),
      (List.pairwise_cons.1 h.stacked).2⟩
  | sweep =>
    exact ⟨hfewer, fun hx => absurd hx Registry.not_alive_sweep,
      fun _ => Registry.not_alive_sweep, hentered (List.Subset.refl _),
      (List.pairwise_cons.1 h.stacked).2⟩
  | @forget _ n rest visited report =>
    have hn : ¬r.Alive n := h.visited (h.entered List.mem_cons_self rfl)
    refine ⟨hfewer, fun {x y} hx hy hxy => ?_, h.visited, hentered (List.Subset.refl _),
      (List.pairwise_cons.1 h.stacked).2⟩
    have hnx : n ≠ x := fun hnx => hn (hnx ▸ hx)
    have hny : y ≠ n := fun hny => hn (hny ▸ hy)
    exact (r.edges.mem_dependentsOf_forget n x hnx hny).2 (h.kept hx hy hxy)
  | contained =>
    exact ⟨hfewer, h.kept, h.visited, hentered (List.Subset.refl _), h.stacked_contained⟩
  | @enter _ n rest visited report hv =>
    refine ⟨hfewer, fun {x y} hx hy hxy => ?_, fun {k} hk hk' => ?_,
      hentered (List.subset_cons_self n visited), h.stacked_enter hv⟩
    · obtain ⟨hx, hxn⟩ := Registry.alive_claim.1 hx
      obtain ⟨hy, -⟩ := Registry.alive_claim.1 hy
      change y ∈ (r.edges.takeDependents n).dependentsOf x
      rw [Edges.dependentsOf_takeDependents, if_neg (Ne.symm hxn)]
      exact h.kept hx hy hxy
    · obtain ⟨hk', hkn⟩ := Registry.alive_claim.1 hk'
      obtain rfl | hk := List.mem_cons.1 hk
      · exact hkn rfl
      · exact h.visited hk hk'

def Due (w : Walk κ) (n : Name) : Prop := ∃ callback, .dispose n callback true ∈ w.tasks

theorem Quiet.due (h : Quiet w r w' r') (hd : w'.Due n) : w.Due n ∨ r.Alive n := by
  obtain ⟨callback, hc⟩ := hd
  obtain hc | ⟨hcallback, hclaimed⟩ := h.dispose_inv hc
  · exact .inl ⟨callback, hc⟩
  · right
    rw [Registry.Alive, Disposers.has, ← hcallback, ← Bool.or_eq_true]
    exact hclaimed.symm

theorem enter_tasks_of_alive (h : r.Alive n) :
    (w.enter r n).tasks = (r.edges.dependentsOf n).map .enter ++
      .dispose n (r.disposers.find? n) true :: .contained n :: .forget n :: w.tasks := by
  have hclaimed : (r.store.holds n || (r.disposers.find? n).isSome) = true := by
    rw [Bool.or_eq_true]
    exact h
  rw [← hclaimed]
  rfl

theorem Quiet.report_inv (h : Quiet w r w' r') :
    w'.report.destroyed = w.report.destroyed ∨
      ∃ n callback, w.tasks = .dispose n callback true :: w'.tasks ∧
        w'.report.destroyed = w.report.destroyed ++ [n] := by
  cases h with
  | start | contained | forget | sweep => exact .inl rfl
  | again hn => exact .inl rfl
  | enter hn => exact .inl rfl
  | @dispose _ n callback claimed rest visited report outcome =>
    cases claimed with
    | false => exact .inl rfl
    | true => exact .inr ⟨n, callback, rfl, rfl⟩

theorem Quiet.reported_inv (h : Quiet w r w' r') (hn : n ∈ w'.report.destroyed) :
    n ∈ w.report.destroyed ∨ ∃ callback, w.tasks = .dispose n callback true :: w'.tasks := by
  obtain hd | ⟨k, callback, hw, hd⟩ := h.report_inv
  · exact .inl (hd ▸ hn)
  · rw [hd, List.mem_append, List.mem_singleton] at hn
    obtain hn | rfl := hn
    · exact .inl hn
    · exact .inr ⟨callback, hw⟩

/-- Whoever has a callback to run is going to be reported. -/
def Claims (w : Walk κ) : Prop :=
  ∀ {n callback claimed}, .dispose n (some callback) claimed ∈ w.tasks → claimed = true

theorem Claims.quiet (hc : w.Claims) (h : Quiet w r w' r') : w'.Claims := by
  intro n callback claimed hd
  obtain hd | ⟨-, rfl⟩ := h.dispose_inv hd
  · exact hc hd
  · simp

structure Untouched (w : Walk κ) : Prop where
  visited : w.visited = []
  tasks : ∀ t ∈ w.tasks, t.entered? = none
  report : w.report = {}

theorem untouched_one : (Walk.one n : Walk κ).Untouched where
  visited := rfl
  tasks := List.forall_mem_singleton.2 rfl
  report := rfl

theorem untouched_all (d : Disposers κ) : (Walk.all d).Untouched where
  visited := rfl
  report := rfl
  tasks t ht := by
    obtain ht | ht := List.mem_append.1 ht
    · obtain ⟨k, -, rfl⟩ := List.mem_map.1 ht
      rfl
    · rw [List.mem_singleton.1 ht]
      rfl

theorem Untouched.orderly (h : w.Untouched) : Orderly r.edges w r where
  fewer := r.edges.fewer_refl
  kept _ _ hxy := hxy
  visited hn := absurd hn (h.visited ▸ List.not_mem_nil)
  entered ht hn := by
    rw [h.tasks _ ht] at hn
    cases hn
  stacked := List.pairwise_of_forall_mem_list fun t _ u hu =>
    Task.over_of_not_entered (h.tasks u hu)

theorem Untouched.claims (h : w.Untouched) : w.Claims := by
  intro n callback claimed hd
  cases h.tasks _ hd

theorem untouched_of_start {op : Op κ} (hop : op = .destroyAll ∨ ∃ n, op = .destroy n)
    (r : Registry κ) :
    ∃ w r₁ events, r.start op = .tearDown w r₁ events ∧ w.Untouched ∧ r₁.edges = r.edges ∧
      (∀ n, op = .destroy n → w = .one n) ∧
      ∀ P : κ → Prop, (∀ entry ∈ r.disposers.entries, P entry.2) → w.Callbacks P r₁ := by
  obtain rfl | ⟨n, rfl⟩ := hop
  · exact ⟨_, _, _, rfl, untouched_all _, rfl, fun n hn => (by cases hn),
      fun P h => Callbacks.all h⟩
  · refine ⟨_, _, _, rfl, untouched_one, rfl, fun k hk => ?_, fun P h => Callbacks.one h⟩
    cases hk
    rfl

end Walk

end ObjectRegistry
