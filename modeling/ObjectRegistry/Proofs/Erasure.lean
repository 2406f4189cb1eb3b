import ObjectRegistry.Proofs.Chains
import ObjectRegistry.Proofs.Mirror
import ObjectRegistry.Proofs.Orderly
import ObjectRegistry.Proofs.Tiers

namespace ObjectRegistry

variable {σ κ : Type}

theorem NameMap.filter_eq_self {α : Type} {t : NameMap α} {gone : List Name}
    (h : ∀ k ∈ gone, k ∉ t) : (t.filter fun k _ => k ∉ gone) = t := by
  apply Std.ExtTreeMap.ext_getElem?
  intro k
  rw [Std.ExtTreeMap.getElem?_filter']
  by_cases hk : k ∈ gone
  · rw [Std.ExtTreeMap.getElem?_eq_none (h k hk), Option.filter_none]
  · cases t[k]? with
    | none => rfl
    | some v => exact Option.filter_eq_some_iff.2 ⟨rfl, decide_eq_true hk⟩

theorem NameMap.not_mem_filter {α : Type} (t : NameMap α) {gone : List Name} {k : Name}
    (hk : k ∈ gone) : k ∉ t.filter fun k _ => k ∉ gone := by
  rw [Std.ExtTreeMap.mem_iff_isSome_getElem?, Std.ExtTreeMap.getElem?_filter',
    Option.isSome_filter]
  cases t[k]? with
  | none => nofun
  | some v => simp only [Option.any_some, hk, not_true_eq_false, decide_false, Bool.false_eq_true,
      not_false_eq_true]

theorem NameMap.erase_filter {α : Type} (t : NameMap α) (gone : List Name) (n : Name) :
    (t.filter fun k _ => k ∉ gone).erase n = t.filter fun k _ => k ∉ n :: gone := by
  apply Std.ExtTreeMap.ext_getElem?
  intro k
  rw [NameMap.getElem?_erase, Std.ExtTreeMap.getElem?_filter', Std.ExtTreeMap.getElem?_filter']
  by_cases hn : n = k
  · subst hn
    simp only [↓reduceIte, List.mem_cons, true_or, not_true_eq_false, decide_false]
    cases t[n]? <;> rfl
  · simp only [hn, Ne.symm hn, ↓reduceIte, List.mem_cons, false_or]

namespace Store

def without (s : Store κ) (gone : List Name) : Store κ :=
  { s with
    finished := s.finished.filter fun n _ => n ∉ gone
    early := s.early.filter fun n _ => n ∉ gone
    pending := s.pending.filter fun n _ => n ∉ gone
    filed := s.filed.filter (· ∉ gone) }

variable {s : Store κ} {gone : List Name} {n : Name}

theorem drop_without (hs : s.filed.Nodup) : (s.without gone).drop n = s.without (n :: gone) := by
  have hfiled : (s.filed.filter (· ∉ gone)).erase n = s.filed.filter (· ∉ n :: gone) := by
    rw [erase_eq_filter_ne (hs.filter _), filter_not_mem_cons]
  simp only [drop, without, NameMap.erase_filter, hfiled]

def Mentions (s : Store κ) (n : Name) : Prop :=
  n ∈ s.finished ∨ n ∈ s.early ∨ n ∈ s.pending ∨ n ∈ s.filed

theorem not_mentions_without (hn : n ∈ gone) : ¬(s.without gone).Mentions n := by
  rintro (h | h | h | h)
  · exact NameMap.not_mem_filter _ hn h
  · exact NameMap.not_mem_filter _ hn h
  · exact NameMap.not_mem_filter _ hn h
  · exact of_decide_eq_true (List.mem_filter.1 h).2 hn

theorem without_eq_self (h : ∀ k ∈ gone, ¬s.Mentions k) : s.without gone = s := by
  have hfinished := NameMap.filter_eq_self fun k hk => mt .inl (h k hk)
  have hearly := NameMap.filter_eq_self fun k hk => mt (.inr ∘ .inl) (h k hk)
  have hpending := NameMap.filter_eq_self fun k hk => mt (.inr ∘ .inr ∘ .inl) (h k hk)
  have hfiled : s.filed.filter (· ∉ gone) = s.filed :=
    List.filter_eq_self.2 fun k hk => decide_eq_true fun hg => h k hg (.inr (.inr (.inr hk)))
  rw [without, hfinished, hearly, hpending, hfiled]

theorem holds_without : (s.without gone).holds n = true ↔ s.holds n = true ∧ n ∉ gone := by
  rw [holds, holds, Std.ExtTreeMap.contains_eq_isSome_getElem?,
    Std.ExtTreeMap.contains_eq_isSome_getElem?, without, Std.ExtTreeMap.getElem?_filter',
    Option.isSome_filter]
  cases s.finished[n]? with
  | none => simp only [Option.any_none, Option.isSome_none, Bool.false_eq_true, false_and]
  | some h => simp only [Option.any_some, decide_eq_true_eq, Option.isSome_some, true_and]

theorem nodup_refiles {d : Deed κ} {s' : Store κ} (hs : s.filed.Nodup) (h : Refiles s d s') :
    s'.filed.Nodup := by
  have hfile {t : Store κ} (ht : t.filed.Nodup) (k : Name) : (t.file k).filed.Nodup := by
    rw [file]
    split
    · exact ht
    · case isFalse hk =>
      rw [← List.concat_eq_append]
      exact ht.concat hk
  cases h with
  | kept | closed | taken | showed => exact hs
  | installed | built | deferred => exact hfile hs _
  | dropped => exact hs.erase _
  | cleared => exact List.nodup_nil
  | discarded =>
    rw [discard]
    split
    · exact hs
    · exact hs.erase _

end Store

namespace Disposers

variable {d : Disposers κ} {gone : List Name} {n : Name}

def without (d : Disposers κ) (gone : List Name) : Disposers κ :=
  ⟨d.entries.filter (·.1 ∉ gone)⟩

theorem erase_without : (d.without gone).erase n = d.without (n :: gone) := by
  rw [erase, without, without, List.filter_filter]
  congr 2
  funext entry
  simp only [List.mem_cons, not_or, ne_eq, Bool.decide_and, decide_not]

theorem not_mem_names_without (hn : n ∈ gone) : n ∉ (d.without gone).names := by
  intro h
  obtain ⟨entry, hentry, rfl⟩ := List.mem_map.1 h
  exact of_decide_eq_true (List.mem_filter.1 hentry).2 hn

theorem without_eq_self (h : ∀ k ∈ gone, k ∉ d.names) : d.without gone = d := by
  have hentries : d.entries.filter (·.1 ∉ gone) = d.entries :=
    List.filter_eq_self.2 fun entry hentry =>
      decide_eq_true fun hg => h entry.1 hg (List.mem_map_of_mem hentry)
  rw [without, hentries]

theorem has_without : (d.without gone).has n = true ↔ d.has n = true ∧ n ∉ gone := by
  simp only [has, find?, without, List.lookup_isSome_iff, List.mem_filter, decide_eq_true_eq,
    beq_iff_eq]
  constructor
  · rintro ⟨entry, ⟨hmem, hgone⟩, rfl⟩
    exact ⟨⟨entry, hmem, rfl⟩, hgone⟩
  · rintro ⟨⟨entry, hmem, rfl⟩, hgone⟩
    exact ⟨entry, ⟨hmem, hgone⟩, rfl⟩

end Disposers

theorem Edges.mentions_of_leads {e : Edges} {a b : Name} (h : e.Leads a b) : e.Mentions a := by
  obtain h | h := h
  · have hkey := Adjacency.mem_keys_of_members _ _ (List.ne_nil_of_mem h)
    exact .inr (.inl (.inl (Std.ExtTreeMap.mem_keys.1 hkey)))
  · have hkey := Adjacency.mem_keys_of_members _ _ (List.ne_nil_of_mem h)
    exact .inl (.inl (Std.ExtTreeMap.mem_keys.1 hkey))

namespace Registry

variable {r : Registry κ} {gone : List Name} {n : Name}

/-- The registry as if nothing had ever been recorded of some names, aliases apart. -/
def without (r : Registry κ) (gone : List Name) : Registry κ :=
  { r with
    store := r.store.without gone
    edges := r.edges.without gone
    disposers := r.disposers.without gone }

theorem alive_without : (r.without gone).Alive n ↔ r.Alive n ∧ n ∉ gone := by
  rw [Alive, Alive, or_and_right]
  exact or_congr Store.holds_without Disposers.has_without

/-- Something is recorded of the name, or it occurs in what is recorded of another. -/
def Mentions (r : Registry κ) (n : Name) : Prop :=
  r.store.Mentions n ∨ r.edges.Mentions n ∨ n ∈ r.disposers.names

theorem Alive.mentions (h : r.Alive n) : r.Mentions n := by
  obtain h | h := h
  · exact .inl (.inl (Std.ExtTreeMap.contains_iff_mem.1 h))
  · rw [Disposers.has, Disposers.find?, List.lookup_isSome_iff] at h
    obtain ⟨entry, hentry, hn⟩ := h
    exact .inr (.inr (eq_of_beq hn ▸ List.mem_map_of_mem hentry))

theorem not_mentions_without (hn : n ∈ gone) : ¬(r.without gone).Mentions n := by
  rintro (h | h | h)
  · exact Store.not_mentions_without hn h
  · exact Edges.not_mentions_without hn h
  · exact Disposers.not_mem_names_without hn h

theorem without_eq_self (he : r.edges.Mirrored) (h : ∀ k ∈ gone, ¬r.Mentions k) :
    r.without gone = r := by
  have hstore := Store.without_eq_self fun k hk => mt .inl (h k hk)
  have hedges := he.without_eq_self fun k hk => mt (.inr ∘ .inl) (h k hk)
  have hdisposers := Disposers.without_eq_self fun k hk => mt (.inr ∘ .inr) (h k hk)
  rw [without, hstore, hedges, hdisposers]

theorem links_edges_start (r : Registry κ) (op : Op κ) :
    (r.start op).registry.links =
        (match op with
          | .links op => op.update r.links
          | _ => r.links) ∧
      (r.start op).registry.edges =
        match op with
        | .edges op => op.update r.links r.edges
        | _ => r.edges := by
  have found {k : Name} {purpose : Purpose} {o : Outset κ} (ho : Finds r k purpose o) :
      o.registry.links = r.links ∧ o.registry.edges = r.edges := by
    cases ho <;> exact ⟨rfl, rfl⟩
  cases op with
  | links op | marks op | store op | edges op | hasDisposer k | disposerNames | describe part
  | destroy k | destroyAll => exact ⟨rfl, rfl⟩
  | find k => exact found (r.finds k .find)
  | findAs given k kind => exact found (r.finds k (.findAs given kind))
  | obtain k factory =>
    rw [start]
    have ho := r.obtains k factory
    generalize r.obtain k factory = o at ho
    cases ho <;> exact ⟨rfl, rfl⟩
  | defer k early =>
    obtain ⟨a, ha⟩ | ⟨-, -, ha⟩ := r.defer_inv k early <;> rw [start, ha] <;> exact ⟨rfl, rfl⟩
  | onDestroy k callback =>
    obtain ⟨a, disposers, ha⟩ := r.onDestroy_inv k callback
    rw [start, ha]
    exact ⟨rfl, rfl⟩

theorem links_after (r : Registry κ) (d : Deed κ) :
    (r.after d).links =
      match d with
      | .asked (.links op) => op.update r.links
      | _ => r.links := by
  cases d with
  | asked op =>
    rw [after, (r.links_edges_start op).1]
    cases op <;> rfl
  | built n ownsWindow outcome => cases outcome <;> rfl
  | turned walk =>
    obtain ⟨tasks, visited, report⟩ := walk
    cases tasks with
    | nil => rfl
    | cons task rest =>
      cases task with
      | dispose n callback claimed => cases callback <;> rfl
      | enter n =>
        simp only [after, Walk.turn]
        split <;> rfl
      | _ => rfl
  | _ => rfl

/-- What requests leave as they find it: aliases run in no circle, edges are known from both ends,
and no name is filed twice. -/
structure Sound (r : Registry κ) : Prop where
  links : r.links.Built
  edges : r.edges.Mirrored
  filed : r.store.filed.Nodup

theorem sound_fresh (settings : Settings) : (settings.registry : Registry κ).Sound where
  links := .empty settings.overriding
  edges := Edges.mirrored_empty
  filed := List.nodup_nil

theorem Sound.asked (h : r.Sound) (request : Request κ) :
    (r.start (request.resolve r.links)).registry.Sound where
  links := by
    rw [(r.links_edges_start _).1]
    cases request with
    | link name aka => exact h.links.link name aka
    | unlink aka => exact h.links.unlink aka
    | _ => exact h.links
  edges := by
    rw [(r.links_edges_start _).2]
    cases request with
    | addDependency k d => exact h.edges.depend _ _
    | addContainment owner part =>
      exact h.edges.addContainment _ (h.links.acyclic.canonical_canonical part)
    | _ => exact h.edges
  filed := Store.nodup_refiles h.filed (r.refiles_asked _)

theorem Sound.after (h : r.Sound) {d : Deed κ} (ha : ∀ op, d ≠ .asked op)
    (ht : ∀ walk, d ≠ .turned walk) : (r.after d).Sound := by
  have hgraph : (r.after d).links = r.links ∧ (r.after d).edges = r.edges := by
    cases d with
    | asked op => exact absurd rfl (ha op)
    | turned walk => exact absurd rfl (ht walk)
    | built k ownsWindow outcome => cases outcome <;> exact ⟨rfl, rfl⟩
    | _ => exact ⟨rfl, rfl⟩
  exact ⟨hgraph.1 ▸ h.links, hgraph.2 ▸ h.edges, Store.nodup_refiles h.filed (r.refiles d)⟩

theorem Sound.without (h : r.Sound) (gone : List Name) : (r.without gone).Sound where
  links := h.links
  edges := h.edges.without gone
  filed := h.filed.filter _

end Registry

theorem Machine.Reachable.built {client : Client σ (Request κ) κ} {m : Machine σ (Request κ) κ}
    (h : m.Reachable client) : m.registry.links.Built := by
  refine h.keeps (P := fun m => m.registry.links.Built)
    (fun settings memory main => .empty settings.overriding) fun m m' hm hs => ?_
  rw [registry_step hs, Registry.links_after]
  split
  · case h_1 op hd =>
    obtain ⟨duty, request, next, -, hop⟩ := call_of_asked hd
    change request.resolve m.registry.links = .links op at hop
    cases request with
    | link name aka =>
      cases hop
      exact hm.link name aka
    | unlink aka =>
      cases hop
      exact hm.unlink aka
    | canonical n | aliasesOf n | isAlias n =>
      cases hop
      exact hm
    | _ => cases hop
  · exact hm

end ObjectRegistry
