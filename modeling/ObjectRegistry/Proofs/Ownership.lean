import Mathlib.Data.List.Induction
import ObjectRegistry.Proofs.BothEnds
import ObjectRegistry.Proofs.TeardownOrder

namespace ObjectRegistry

namespace Edges

def Estranged (e : Edges) (owner part : Name) : Prop :=
  part ∈ e.containedIn owner ∧ owner ∉ e.dependentsOf part

section Updates

variable {e : Edges} {owner part : Name}

theorem not_estranged_empty : ¬Estranged {} owner part := by
  rintro ⟨h, -⟩
  rw [containedIn, members_empty] at h
  cases h

theorem containedIn_depend (n d : Name) :
    (e.depend n d).containedIn owner = e.containedIn owner := by
  rw [depend]
  split <;> rfl

theorem estranged_depend (n d : Name) :
    (e.depend n d).Estranged owner part ↔
      e.Estranged owner part ∧ ¬(d = owner ∧ n = part) := by
  simp only [Estranged, containedIn_depend, mem_dependentsOf_depend]
  constructor
  · rintro ⟨hc, hd⟩
    exact ⟨⟨hc, fun h => hd (.inl h)⟩, fun ⟨ho, hp⟩ => hd (.inr ⟨hp.symm, ho.symm⟩)⟩
  · rintro ⟨⟨hc, hd⟩, hn⟩
    exact ⟨hc, fun h => h.elim hd fun ⟨hp, ho⟩ => hn ⟨ho.symm, hp.symm⟩⟩

theorem estranged_addContainment (links : Links) (o p : Name) :
    (e.addContainment links o p).Estranged owner part ↔
      e.Estranged owner part ∧
          ¬(o = owner ∧ links.canonical p = part ∧ p ∉ e.containedIn o) ∨
        (o = owner ∧ p = part) ∧ links.canonical part ≠ part ∧ owner ∉ e.dependentsOf part := by
  rw [addContainment]
  split
  · case isTrue hp =>
    -- Nothing is recorded, and if it is this part that is there already it lacks its owner.
    constructor
    · exact fun h => .inl ⟨h, fun hn => hn.2.2 hp⟩
    · rintro (⟨h, -⟩ | ⟨⟨rfl, rfl⟩, -, hd⟩)
      · exact h
      · exact ⟨hp, hd⟩
  · case isFalse hp =>
    rw [addDependency, estranged_depend]
    have hcontained {k : Name} :
        k ∈ containedIn { e with contained := Adjacency.add e.contained o p } owner ↔
          k ∈ e.containedIn owner ∨ owner = o ∧ k = p := Adjacency.mem_add
    constructor
    · rintro ⟨⟨hc, hd⟩, hn⟩
      obtain hc | ⟨rfl, rfl⟩ := hcontained.1 hc
      · exact .inl ⟨⟨hc, hd⟩, fun h => hn ⟨h.1, h.2.1⟩⟩
      · exact .inr ⟨⟨rfl, rfl⟩, fun h => hn ⟨rfl, h⟩, hd⟩
    · rintro (⟨⟨hc, hd⟩, hn⟩ | ⟨⟨rfl, rfl⟩, ha, hd⟩)
      · exact ⟨⟨hcontained.2 (.inl hc), hd⟩, fun h => hn ⟨h.1, h.2, hp⟩⟩
      · exact ⟨⟨hcontained.2 (.inr ⟨rfl, rfl⟩), hd⟩, fun h => ha h.2⟩

theorem Accounted.mem_containedIn_forget {owed : Name → Prop} (h : e.Accounted owed) (n : Name) :
    part ∈ (e.forget n).containedIn owner ↔
      owner ≠ n ∧ part ∈ e.containedIn owner ∧ (part = n → owner ∉ e.dependentsOf n) :=
  mem_removeFrom_erase h.contained (e.dependentsOf n)

/-- A part is found in its owner through its dependents, so it stays there if the owner is not one
of them. -/
theorem Accounted.estranged_forget (h : e.Accounted fun _ => False) (n : Name) :
    (e.forget n).Estranged owner part ↔ e.Estranged owner part ∧ n ≠ owner := by
  have hdependent : owner ∈ (e.forget n).dependentsOf part ↔
      part ≠ n ∧ owner ∈ e.dependentsOf part ∧ (owner = n → part ∉ e.dependenciesOf n) :=
    mem_removeFrom_erase h.dependents (e.dependenciesOf n)
  rw [Estranged, h.mem_containedIn_forget, hdependent]
  constructor
  · rintro ⟨⟨hn, hc, hp⟩, hd⟩
    refine ⟨⟨hc, fun hmem => ?_⟩, hn.symm⟩
    by_cases hpn : part = n
    · exact hp hpn (hpn ▸ hmem)
    · exact hd ⟨hpn, hmem, fun ho => absurd ho hn⟩
  · rintro ⟨⟨hc, hd⟩, hn⟩
    exact ⟨⟨hn.symm, hc, fun hp => hp ▸ hd⟩, fun hmem => hd hmem.2.1⟩

end Updates

end Edges

structure Graph where
  links : Links := {}
  edges : Edges := {}

namespace Graph

inductive Call where
  | link (name aka : Name)
  | unlink (aka : Name)
  | edges (op : Edges.Op)

def apply (g : Graph) : Call → Graph
  | .link name aka => { g with links := (Links.Op.link name aka).update g.links }
  | .unlink aka => { g with links := (Links.Op.unlink aka).update g.links }
  | .edges op => { g with edges := op.update g.links g.edges }

def after (g : Graph) (calls : List Call) : Graph := calls.foldl apply g

/-- A call has `owner` depend on `part`, or has `owner` contain nothing any more. -/
def Reconciles (g : Graph) (owner part : Name) : Call → Prop
  | .edges (.addDependency n d) => d = owner ∧ g.links.canonical n = part
  | .edges (.addContainment o p) =>
    o = owner ∧ g.links.canonical p = part ∧ p ∉ g.edges.containedIn o
  | .edges (.forget n) => n = owner
  | .edges .clear => True
  | _ => False

/-- `part` was put into `owner` while it was an alias and `owner` was not one of its dependents, and
no call has made up for that since. -/
inductive Estranges (g : Graph) (owner part : Name) : List Call → Prop where
  | put {calls : List Call} (ha : (g.after calls).links.isAlias part = true)
    (hd : owner ∉ (g.after calls).edges.dependentsOf part) :
    Estranges g owner part (calls ++ [.edges (.addContainment owner part)])
  | since {calls : List Call} {c : Call} (h : Estranges g owner part calls)
    (hc : ¬(g.after calls).Reconciles owner part c) : Estranges g owner part (calls ++ [c])

variable {g : Graph} {owner part : Name} {calls : List Call} {c : Call}

@[simp] theorem after_concat : g.after (calls ++ [c]) = (g.after calls).apply c := by
  simp [after]

structure Kept (g : Graph) : Prop where
  links : g.links.Acyclic
  edges : g.edges.Accounted fun _ => False

theorem Kept.apply (h : g.Kept) (c : Call) : (g.apply c).Kept := by
  cases c with
  | link name aka => exact ⟨h.links.update_link name aka, h.edges⟩
  | unlink aka => exact ⟨h.links.update_unlink aka, h.edges⟩
  | edges op => exact ⟨h.links, h.edges.update g.links op⟩

theorem Kept.after (h : g.Kept) (calls : List Call) : (g.after calls).Kept := by
  induction calls using List.reverseRecOn with
  | nil => exact h
  | append_singleton calls c ih =>
    rw [after_concat]
    exact ih.apply c

theorem Kept.isAlias_iff (h : g.Kept) :
    g.links.isAlias part = true ↔ g.links.canonical part ≠ part := by
  constructor
  · intro ha hc
    have hnone := h.links.not_alias_canonical part
    rw [hc] at hnone
    rw [Links.isAlias_eq_false_iff.2 hnone] at ha
    cases ha
  · intro hc
    apply Classical.byContradiction
    intro ha
    exact hc (Links.canonical_of_isAlias (Bool.eq_false_iff.2 ha))

theorem Kept.estranged_apply (h : g.Kept) (c : Call) :
    (g.apply c).edges.Estranged owner part ↔
      g.edges.Estranged owner part ∧ ¬g.Reconciles owner part c ∨
        c = .edges (.addContainment owner part) ∧ g.links.isAlias part = true ∧
          owner ∉ g.edges.dependentsOf part := by
  have hstay (hr : ¬g.Reconciles owner part c) (hc : c ≠ .edges (.addContainment owner part)) :
      g.edges.Estranged owner part ↔
        g.edges.Estranged owner part ∧ ¬g.Reconciles owner part c ∨
          c = .edges (.addContainment owner part) ∧ g.links.isAlias part = true ∧
            owner ∉ g.edges.dependentsOf part := by
    simp [hr, hc]
  cases c with
  | link | unlink => exact hstay not_false nofun
  | edges op =>
    cases op with
    | dependentsOf | dependenciesOf | containedIn | hasDependents | isTransitivelyDependent
    | isEmpty | describe => exact hstay not_false nofun
    | clear => simp [Graph.apply, Edges.Op.update, Reconciles, Edges.not_estranged_empty]
    | addDependency n d =>
      simp [Graph.apply, Edges.Op.update, Edges.addDependency, Edges.estranged_depend, Reconciles]
    | forget n => simp [Graph.apply, Edges.Op.update, h.edges.estranged_forget, Reconciles]
    | addContainment o p =>
      simp only [Graph.apply, Edges.Op.update, Edges.estranged_addContainment, Reconciles,
        h.isAlias_iff, Call.edges.injEq, Edges.Op.addContainment.injEq]

/-- By induction on the calls, the latest first. -/
theorem Kept.estranged_iff (h : g.Kept) (hg : ¬g.edges.Estranged owner part) (calls : List Call) :
    (g.after calls).edges.Estranged owner part ↔ g.Estranges owner part calls := by
  induction calls using List.reverseRecOn with
  | nil =>
    refine ⟨fun he => absurd he hg, fun he => ?_⟩
    generalize hc : ([] : List Call) = calls at he
    cases he with
    | put | since => exact absurd hc.symm (List.concat_ne_nil _ _)
  | append_singleton calls c ih =>
    rw [after_concat, (h.after calls).estranged_apply]
    constructor
    · rintro (⟨he, hc⟩ | ⟨rfl, ha, hd⟩)
      · exact .since (ih.1 he) hc
      · exact .put ha hd
    · intro he
      generalize hcs : calls ++ [c] = all at he
      cases he with
      | put ha hd =>
        obtain ⟨rfl, hc⟩ := List.append_inj' hcs rfl
        exact .inr ⟨List.singleton_inj.1 hc, ha, hd⟩
      | since he hr =>
        obtain ⟨rfl, hc⟩ := List.append_inj' hcs rfl
        cases hc
        exact .inl ⟨ih.2 he, hr⟩

end Graph

namespace Machine

variable {σ ρ κ : Type} [Language ρ κ] {client : Client σ ρ κ} {m : Machine σ ρ κ}

theorem owner_reported_first {owner part : Name} (hd : m.deed = .asked (.destroy part))
    (hs : ∀ entry ∈ m.registry.disposers.entries, (client.disposer entry.2).Silent)
    (ho : m.registry.Alive owner) (hp : m.registry.Alive part) (hne : owner ≠ part)
    (hmem : owner ∈ m.registry.edges.dependentsOf part) :
    ∃ report, m.Answers client (.report report) ∧ [owner, part].Sublist report.destroyed := by
  obtain ⟨w', r', hq, hend, ha⟩ := tearDown_answers hd rfl (Walk.Callbacks.one hs)
  exact ⟨w'.report, ha, hq.overtakes hend ho hp (Edges.undercuts_of_dependent hmem hne)⟩

/-- After any calls on a graph and its aliases, names that are aliases among the arguments, an owner
is missing among the dependents of its part just when the part was put there as an alias that the
owner did not depend on, and nothing has made up for it. Just then forgetting the part leaves it in
its owner, unless it is its own owner. Else the teardown of the part takes its owner down first. -/
theorem owners_depend_unless_estranged {l : Links} (hl : l.Acyclic) (calls : List Graph.Call)
    (owner part : Name) :
    let e := (Graph.after ⟨l, {}⟩ calls).edges
    (part ∈ e.containedIn owner ∧ owner ∉ e.dependentsOf part ↔
        Graph.Estranges ⟨l, {}⟩ owner part calls) ∧
      (part ∈ (e.forget part).containedIn owner ↔
        owner ≠ part ∧ Graph.Estranges ⟨l, {}⟩ owner part calls) ∧
      (part ∈ e.containedIn owner → ¬Graph.Estranges ⟨l, {}⟩ owner part calls →
        m.registry.edges = e → m.deed = .asked (.destroy part) →
        (∀ entry ∈ m.registry.disposers.entries, (client.disposer entry.2).Silent) →
        m.registry.Alive owner → m.registry.Alive part → owner ≠ part →
        ∃ report, m.Answers client (.report report) ∧ [owner, part].Sublist report.destroyed) := by
  intro e
  have hkept : (Graph.mk l {}).Kept := ⟨hl, Edges.accounted_empty⟩
  have hiff : e.Estranged owner part ↔ Graph.Estranges ⟨l, {}⟩ owner part calls :=
    hkept.estranged_iff Edges.not_estranged_empty calls
  refine ⟨hiff, ?_, fun hc hn hm hd hs ho hp hne => ?_⟩
  · rw [(hkept.after calls).edges.mem_containedIn_forget, ← hiff]
    simp [Edges.Estranged, e]
  · refine owner_reported_first hd hs ho hp hne ?_
    apply Classical.byContradiction
    intro hmem
    rw [hm] at hmem
    exact hn (hiff.1 ⟨hc, hmem⟩)

section Nicknamed

def nicknamed : Links := (Links.Op.link "b" "a").update {}

theorem nicknamed_acyclic : nicknamed.Acyclic := ((Links.Built.empty true).link "b" "a").acyclic

def assembled : Edges :=
  (Graph.after ⟨nicknamed, {}⟩
    [.edges (.addContainment "x" "b"), .edges (.addContainment "y" "a")]).edges

def dismantling (owner part : Name) : Machine Unit (Request Unit) Unit :=
  let store := (({} : Store Unit).finish part ⟨0, .unit⟩).finish owner ⟨1, .unit⟩
  .ofMain { edges := assembled, store } () (do
    let _ ← .ask (.destroy part))

theorem owners_depend_unless_estranged_nicknamed :
    nicknamed.Acyclic ∧
      ("a" ∈ assembled.containedIn "y" ∧ "y" ∉ assembled.dependentsOf "a") ∧
      "a" ∈ (assembled.forget "a").containedIn "y" ∧
      ∃ report, (dismantling "x" "b").Answers idle (.report report) ∧
        ["x", "b"].Sublist report.destroyed := by
  have hl : nicknamed.Acyclic := nicknamed_acyclic
  have ha : "a" ∈ assembled.containedIn "y" ∧ "y" ∉ assembled.dependentsOf "a" := by decide
  have hb : "b" ∈ assembled.containedIn "x" ∧ ¬("x" ∉ assembled.dependentsOf "b") := by decide
  let calls : List Graph.Call :=
    [.edges (.addContainment "x" "b"), .edges (.addContainment "y" "a")]
  obtain ⟨hya, hforget, -⟩ :=
    @owners_depend_unless_estranged _ _ _ _ idle (dismantling "y" "a") _ hl calls "y" "a"
  obtain ⟨hxb, -, hdestroy⟩ :=
    @owners_depend_unless_estranged _ _ _ _ idle (dismantling "x" "b") _ hl calls "x" "b"
  refine ⟨hl, ha, hforget.2 ⟨by decide, hya.1 ha⟩, ?_⟩
  exact hdestroy hb.1 (fun he => hb.2 (hxb.2 he).2) rfl rfl (List.forall_mem_nil _)
    (.inl (by decide)) (.inl (by decide)) (by decide)

/-- An owner does not depend on its part. The part stays in it when it is forgotten, and is torn
down without it. -/
theorem estranged_from_alias :
    nicknamed.Acyclic ∧ "a" ∈ assembled.containedIn "y" ∧ "y" ∉ assembled.dependentsOf "a" ∧
      "a" ∈ (assembled.forget "a").containedIn "y" ∧
      (dismantling "y" "a").registry.store.holds "y" = true ∧
      (dismantling "y" "a").deed = .asked (.destroy "a") ∧
      (dismantling "y" "a").Answers idle (.report ⟨["a"], []⟩) :=
  ⟨nicknamed_acyclic, by decide, by decide, by decide, by decide, rfl, 5, rfl, by decide⟩

end Nicknamed

end Machine

end ObjectRegistry
