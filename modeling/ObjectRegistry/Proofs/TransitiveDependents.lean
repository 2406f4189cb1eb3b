import ObjectRegistry.Proofs.Chains
import ObjectRegistry.Proofs.Mirror

namespace ObjectRegistry.Edges

open Relation

variable {e : Edges} {links : Links} {candidate root n m x y : Name}
  {pending rest seen keys : List Name} {outcome : Bool}

def Climbs (e : Edges) (links : Links) (x y : Name) : Prop :=
  ∃ d ∈ e.dependentsOf x, links.canonical d = y

/-- The course of the search: `Seeks e links candidate pending seen outcome` holds if it ends with
that outcome when the names of `pending` are still to be looked at, the first one next, and those
of `seen` have been. It does not end if a chain has no end. -/
inductive Seeks (e : Edges) (links : Links) (candidate : Name) :
    (pending seen : List Name) → Bool → Prop where
  | exhausted (seen : List Name) : Seeks e links candidate [] seen false
  | again {n m : Name} {rest seen : List Name} {outcome : Bool}
    (hm : links.chainEnd? links.target.size n = some m) (hs : m ∈ seen)
    (h : Seeks e links candidate rest seen outcome) :
    Seeks e links candidate (n :: rest) seen outcome
  | found {n m : Name} {rest seen : List Name}
    (hm : links.chainEnd? links.target.size n = some m) (hs : m ∉ seen)
    (hc : candidate ∈ e.dependentsOf m) : Seeks e links candidate (n :: rest) seen true
  | on {n m : Name} {rest seen : List Name} {outcome : Bool}
    (hm : links.chainEnd? links.target.size n = some m) (hs : m ∉ seen)
    (hc : candidate ∉ e.dependentsOf m)
    (h : Seeks e links candidate (((e.dependentsOf m).filter (· ∉ m :: seen)).reverse ++ rest)
      (m :: seen) outcome) :
    Seeks e links candidate (n :: rest) seen outcome

section Ends

theorem load_filter_le (p : Name → Bool) (keys : List Name) :
    e.load (keys.filter p) ≤ e.load keys := by
  induction keys with
  | nil => exact Nat.le_refl 0
  | cons k keys ih =>
    rw [List.filter_cons, load_cons]
    split
    · rw [load_cons]
      omega
    · omega

theorem load_filter_ne (hm : m ∈ keys) :
    e.load (keys.filter (· ≠ m)) + (e.dependentsOf m).length ≤ e.load keys := by
  induction keys with
  | nil => cases hm
  | cons k keys ih =>
    rw [load_cons]
    by_cases hk : k = m
    · have hle := e.load_filter_le (· ≠ m) keys
      rw [List.filter_cons, if_neg (by simp [hk]), hk]
      omega
    · have hle := ih ((List.mem_cons.1 hm).resolve_left (Ne.symm hk))
      rw [List.filter_cons, if_pos (decide_eq_true hk), load_cons]
      omega

/-- A bound on the looks that the search may still take: one for each name that waits, and one for
each end of an edge at a name not yet looked at. -/
def looksLeft (e : Edges) (pending seen : List Name) : Nat :=
  pending.length + e.load (e.dependents.keys.filter (· ∉ seen))

theorem looksLeft_on (hs : m ∉ seen) :
    e.looksLeft (((e.dependentsOf m).filter (· ∉ m :: seen)).reverse ++ rest) (m :: seen) <
      e.looksLeft (n :: rest) seen := by
  have hnew := List.length_filter_le (· ∉ m :: seen) (e.dependentsOf m)
  have hleft : e.load (e.dependents.keys.filter (· ∉ m :: seen)) + (e.dependentsOf m).length ≤
      e.load (e.dependents.keys.filter (· ∉ seen)) := by
    rw [← filter_not_mem_cons]
    by_cases hnone : e.dependentsOf m = []
    · rw [hnone]
      exact load_filter_le _ _
    · exact load_filter_ne (List.mem_filter.2
        ⟨Adjacency.mem_keys_of_members _ _ hnone, decide_eq_true hs⟩)
  simp only [looksLeft, List.length_append, List.length_reverse, List.length_cons]
  omega

theorem exists_seeks (h : links.Acyclic) (e : Edges) (candidate : Name)
    (pending seen : List Name) : ∃ outcome, Seeks e links candidate pending seen outcome := by
  induction hk : e.looksLeft pending seen using Nat.strong_induction_on
    generalizing pending seen with
  | _ k ih =>
    subst hk
    obtain - | ⟨n, rest⟩ := pending
    · exact ⟨false, .exhausted seen⟩
    have hm := h.chainEnd?_eq_canonical n
    by_cases hs : links.canonical n ∈ seen
    · have hlt : e.looksLeft rest seen < e.looksLeft (n :: rest) seen := by
        rw [looksLeft, looksLeft, List.length_cons]
        omega
      obtain ⟨outcome, ho⟩ := ih _ hlt rest seen rfl
      exact ⟨outcome, .again hm hs ho⟩
    · by_cases hc : candidate ∈ e.dependentsOf (links.canonical n)
      · exact ⟨true, .found hm hs hc⟩
      · obtain ⟨outcome, ho⟩ := ih _ (looksLeft_on hs) _ _ rfl
        exact ⟨outcome, .on hm hs hc ho⟩

end Ends

structure Seeking (e : Edges) (links : Links) (candidate root : Name)
    (pending seen : List Name) : Prop where
  seen_ends : ∀ x ∈ seen, links.canonical x = x
  without_candidate : ∀ x ∈ seen, candidate ∉ e.dependentsOf x
  pending_reached : ∀ n ∈ pending, ReflTransGen (e.Climbs links) root (links.canonical n)
  covers : ∀ x, x = root ∨ (∃ k ∈ seen, e.Climbs links k x) →
    x ∈ seen ∨ ∃ n ∈ pending, links.canonical n = x

namespace Seeking

theorem start (h : links.canonical n = root) : Seeking e links candidate root [n] [] where
  seen_ends := List.forall_mem_nil _
  without_candidate := List.forall_mem_nil _
  pending_reached k hk := by rw [List.mem_singleton.1 hk, h]
  covers x hx := by
    obtain rfl | ⟨k, hk, -⟩ := hx
    · exact .inr ⟨n, List.mem_singleton_self n, h⟩
    · cases hk

theorem again (h : Seeking e links candidate root (n :: rest) seen)
    (hs : links.canonical n ∈ seen) : Seeking e links candidate root rest seen where
  seen_ends := h.seen_ends
  without_candidate := h.without_candidate
  pending_reached k hk := h.pending_reached k (List.mem_cons_of_mem _ hk)
  covers x hx := by
    obtain hx | ⟨k, hk, rfl⟩ := h.covers x hx
    · exact .inl hx
    · obtain rfl | hk := List.mem_cons.1 hk
      · exact .inl hs
      · exact .inr ⟨k, hk, rfl⟩

theorem on (h : Seeking e links candidate root (n :: rest) seen) (hl : links.Acyclic)
    (hm : links.canonical n = m) (hc : candidate ∉ e.dependentsOf m) :
    Seeking e links candidate root
      (((e.dependentsOf m).filter (· ∉ m :: seen)).reverse ++ rest) (m :: seen) := by
  have hends : ∀ x ∈ m :: seen, links.canonical x = x := by
    refine List.forall_mem_cons.2 ⟨?_, h.seen_ends⟩
    rw [← hm, hl.canonical_canonical]
  constructor
  case seen_ends => exact hends
  case without_candidate => exact List.forall_mem_cons.2 ⟨hc, h.without_candidate⟩
  case pending_reached =>
    intro k hk
    obtain hk | hk := List.mem_append.1 hk
    · have hroot := h.pending_reached n List.mem_cons_self
      rw [hm] at hroot
      exact hroot.tail ⟨k, (List.mem_filter.1 (List.mem_reverse.1 hk)).1, rfl⟩
    · exact h.pending_reached k (List.mem_cons_of_mem _ hk)
  case covers =>
    have hold : ∀ x, x ∈ seen ∨ (∃ k ∈ n :: rest, links.canonical k = x) → x ∈ m :: seen ∨
        ∃ k ∈ ((e.dependentsOf m).filter (· ∉ m :: seen)).reverse ++ rest,
          links.canonical k = x := by
      rintro x (hx | ⟨k, hk, rfl⟩)
      · exact .inl (List.mem_cons_of_mem _ hx)
      · obtain rfl | hk := List.mem_cons.1 hk
        · exact .inl (hm ▸ List.mem_cons_self)
        · exact .inr ⟨k, List.mem_append_right _ hk, rfl⟩
    rintro x (hx | ⟨k, hk, hkx⟩)
    · exact hold x (h.covers x (.inl hx))
    · obtain rfl | hk := List.mem_cons.1 hk
      · obtain ⟨d, hd, rfl⟩ := hkx
        -- A dependent that is passed over is one of the names seen, and stands for itself.
        by_cases hs : d ∈ k :: seen
        · exact .inl ((hends d hs).symm ▸ hs)
        · refine .inr ⟨d, List.mem_append_left _ (List.mem_reverse.2 ?_), rfl⟩
          exact List.mem_filter.2 ⟨hd, decide_eq_true hs⟩
      · exact hold x (h.covers x (.inr ⟨k, hk, hkx⟩))

theorem mem_seen_of_reached (h : Seeking e links candidate root [] seen)
    (hx : ReflTransGen (e.Climbs links) root x) : x ∈ seen := by
  have hcovers : ∀ y, y = root ∨ (∃ k ∈ seen, e.Climbs links k y) → y ∈ seen := fun y hy =>
    (h.covers y hy).resolve_right fun ⟨_, hk, _⟩ => List.not_mem_nil hk
  induction hx with
  | refl => exact hcovers root (.inl rfl)
  | tail _ hyz ih => exact hcovers _ (.inr ⟨_, ih, hyz⟩)

theorem outcome_iff (h : Seeking e links candidate root pending seen) (hl : links.Acyclic)
    (ho : Seeks e links candidate pending seen outcome) :
    outcome = true ↔
      ∃ x, ReflTransGen (e.Climbs links) root x ∧ candidate ∈ e.dependentsOf x := by
  induction ho with
  | exhausted seen =>
    refine iff_of_false Bool.false_ne_true ?_
    rintro ⟨x, hx, hc⟩
    exact h.without_candidate x (h.mem_seen_of_reached hx) hc
  | @again n m rest seen outcome hm hs ho ih =>
    obtain rfl := Option.some.inj ((hl.chainEnd?_eq_canonical n).symm.trans hm)
    exact ih (h.again hs)
  | @found n m rest seen hm hs hc =>
    obtain rfl := Option.some.inj ((hl.chainEnd?_eq_canonical n).symm.trans hm)
    exact iff_of_true rfl ⟨_, h.pending_reached n List.mem_cons_self, hc⟩
  | @on n m rest seen outcome hm hs hc ho ih =>
    obtain rfl := Option.some.inj ((hl.chainEnd?_eq_canonical n).symm.trans hm)
    exact ih (h.on hl rfl hc)

end Seeking

theorem reachIn_of_climbs (hx : ReflTransGen (e.Climbs links) root x)
    (hd : e.dependentsOf x ≠ []) :
    ReachIn (fun n => (e.dependentsOf n).map links.canonical) e.dependents.keys [root] x := by
  induction hx with
  | refl =>
    exact .root (Adjacency.mem_keys_of_members _ _ hd) (List.mem_singleton_self root)
  | tail _ hyz ih =>
    obtain ⟨d, hdy, rfl⟩ := hyz
    exact .step (ih (List.ne_nil_of_mem hdy)) (Adjacency.mem_keys_of_members _ _ hd)
      (List.mem_map_of_mem hdy)

theorem climbs_of_reachIn
    (h : ReachIn (fun n => (e.dependentsOf n).map links.canonical) keys [root] x) :
    ReflTransGen (e.Climbs links) root x := by
  induction h with
  | root _ hp => rw [List.mem_singleton.1 hp]
  | step _ _ hb ih =>
    obtain ⟨d, hd, hb⟩ := List.mem_map.1 hb
    exact ih.tail ⟨d, hd, hb⟩

theorem isTransitivelyDependent_iff {target : Name} :
    e.isTransitivelyDependent links target candidate = true ↔
      ∃ x, ReflTransGen (e.Climbs links) (links.canonical target) x ∧
        candidate ∈ e.dependentsOf x := by
  simp only [isTransitivelyDependent, List.any_eq_true, decide_eq_true_eq, mem_gather]
  refine exists_congr fun x => and_congr_left fun hc => ⟨climbs_of_reachIn, fun hx => ?_⟩
  exact reachIn_of_climbs hx (List.ne_nil_of_mem hc)

/-- Whatever has become of the aliases since the edges were recorded, so long as they run in no
circle, the search ends, on edges that do too, and its one outcome is the answer to the query. This
is yes just when the candidate depends on some name to which a path leads that goes on from each
name to what one of its dependents stands for. -/
theorem search_finds_transitive_dependents (h : links.Acyclic) (e : Edges)
    (target candidate : Name) :
    (∀ outcome, Seeks e links candidate [target] [] outcome ↔
        outcome = e.isTransitivelyDependent links target candidate) ∧
      (e.isTransitivelyDependent links target candidate = true ↔
        ∃ x, ReflTransGen (e.Climbs links) (links.canonical target) x ∧
          candidate ∈ e.dependentsOf x) := by
  have hunique : ∀ outcome, Seeks e links candidate [target] [] outcome →
      outcome = e.isTransitivelyDependent links target candidate := by
    intro outcome ho
    rw [Bool.eq_iff_iff, isTransitivelyDependent_iff]
    exact (Seeking.start rfl).outcome_iff h ho
  refine ⟨fun outcome => ⟨hunique outcome, ?_⟩, isTransitivelyDependent_iff⟩
  rintro rfl
  obtain ⟨outcome, ho⟩ := exists_seeks h e candidate [target] []
  rwa [← hunique outcome ho]

def parted : Edges :=
  (Op.addDependency "d" "c").update {} ((Op.addDependency "c" "d").update {}
    ((Op.addDependency "a" "b").update {} {}))

def bridging : Links := (Links.Op.link "c" "b").update {}

theorem search_finds_transitive_dependents_parted :
    bridging.Acyclic ∧ Seeks parted bridging "d" ["a"] [] true ∧
      (∃ x, ReflTransGen (parted.Climbs bridging) (bridging.canonical "a") x ∧
        "d" ∈ parted.dependentsOf x) ∧
      Seeks parted bridging "a" ["b"] [] false ∧
      ¬∃ x, ReflTransGen (parted.Climbs bridging) (bridging.canonical "b") x ∧
        "a" ∈ parted.dependentsOf x := by
  have hac : bridging.Acyclic := ((Links.Built.empty true).link "c" "b").acyclic
  have hyes : parted.isTransitivelyDependent bridging "a" "d" = true := by decide
  have hno : parted.isTransitivelyDependent bridging "b" "a" = false := by decide
  obtain ⟨hseeks, hiff⟩ := search_finds_transitive_dependents hac parted "a" "d"
  obtain ⟨hseeks', hiff'⟩ := search_finds_transitive_dependents hac parted "b" "a"
  exact ⟨hac, (hseeks true).2 hyes.symm, hiff.1 hyes, (hseeks' false).2 hno.symm,
    mt hiff'.2 (Bool.eq_false_iff.1 hno)⟩

end ObjectRegistry.Edges
