import DocComment.Proofs.WalkNodes
import Mathlib.Data.List.Flatten

/-! # Visits that stop on the way

A visit may be told at which nodes to go on to their children.  It then meets the nodes to which some
segments lead through such nodes alone, in the order in which a full visit meets them.  The more nodes
let it go on, the more it meets. -/

namespace DocComment
open scoped List

namespace Node

theorem descend?_append (segments more : List Text) (n : Node) :
    n.descend? (segments ++ more) = (n.descend? segments).bind (descend? more) := by
  induction segments generalizing n with
  | nil => rfl
  | cons segment segments ih =>
    rw [List.cons_append, descend?_cons, descend?_cons, Option.bind_assoc]
    exact congrArg _ (funext ih)

theorem Ordered.descend? {n m : Node} {segments : List Text} (h : n.Ordered)
    (hm : n.descend? segments = some m) : m.Ordered := by
  intro more k hk
  refine h (segments ++ more) k ?_
  rw [descend?_append, hm]
  exact hk

/-- `P` holds of every node from which some segments lead on. -/
def Passes (P : Node → Prop) (segments : List Text) (n : Node) : Prop :=
  ∀ before m, before <+: segments → before ≠ segments → n.descend? before = some m → P m

variable {P : Node → Prop} {n : Node}

theorem passes_nil : n.Passes P [] := by
  intro before m hpre hne
  exact absurd (List.prefix_nil.mp hpre) hne

theorem passes_cons {segment : Text} {rest : List Text} :
    n.Passes P (segment :: rest) ↔
      P n ∧ ∀ c, n.child? segment = some c → c.Passes P rest := by
  constructor
  · intro h
    refine ⟨h [] n List.nil_prefix (by simp) rfl, ?_⟩
    intro c hc before m hpre hne hm
    refine h (segment :: before) m (List.cons_prefix_cons.mpr ⟨rfl, hpre⟩) (by simpa using hne) ?_
    rw [descend?_cons, hc]
    exact hm
  · rintro ⟨hn, hrest⟩ before m hpre hne hm
    cases before with
    | nil =>
      cases hm
      exact hn
    | cons first before =>
      obtain ⟨rfl, hbefore⟩ := List.cons_prefix_cons.mp hpre
      rw [descend?_cons, Option.bind_eq_some_iff] at hm
      obtain ⟨c, hc, hm⟩ := hm
      exact hrest c hc before m hbefore (by simpa using hne) hm

end Node

namespace Walk

theorem mem_below_iff {n : Node} (h : n.Ordered) {path : Text} {c : Text × Node} :
    c ∈ below path n ↔ ∃ segment, n.child? segment = some c.2 ∧ c.1 = childPath path segment := by
  rw [(below_perm path n).mem_iff, List.mem_map]
  constructor
  · rintro ⟨⟨segment, m⟩, hm, rfl⟩
    exact ⟨segment, h.mem_children_iff.mp hm, rfl⟩
  · rintro ⟨segment, hc, hpath⟩
    exact ⟨(segment, c.2), h.mem_children_iff.mpr hc, by rw [← hpath]⟩

/-- A node and what is below it, each node before those below it, where the visit goes on below a node
only if that node lets it. -/
def visitWhere (enters : Node → Bool) (path : Text) (n : Node) : List (Text × Node) :=
  (path, n) :: if enters n then (below path n).attach.flatMap fun c => visitWhere enters c.1.1 c.1.2
    else []
termination_by n.size
decreasing_by exact size_lt_of_mem_below c.2

theorem visitWhere_eq (enters : Node → Bool) (path : Text) (n : Node) :
    visitWhere enters path n = (path, n) ::
      if enters n then (below path n).flatMap fun c => visitWhere enters c.1 c.2 else [] := by
  rw [visitWhere, List.flatMap_subtype (g := fun c => visitWhere enters c.1 c.2) (fun _ _ => rfl),
    List.unattach_attach]

variable {enters enters' : Node → Bool}

theorem visitWhere_true (path : Text) (n : Node) : visitWhere (fun _ => true) path n = visit path n := by
  induction hsize : n.size using Nat.strong_induction_on generalizing n path with
  | _ size ih =>
    rw [visitWhere_eq, visit_eq, if_pos rfl]
    congr 1
    apply List.flatMap_congr
    intro c hc
    exact ih c.2.size (hsize ▸ size_lt_of_mem_below hc) c.1 c.2 rfl

theorem visitWhere_sublist (h : ∀ n, enters n = true → enters' n = true) (path : Text) (n : Node) :
    visitWhere enters path n <+ visitWhere enters' path n := by
  induction hsize : n.size using Nat.strong_induction_on generalizing n path with
  | _ size ih =>
    rw [visitWhere_eq, visitWhere_eq]
    refine List.Sublist.cons_cons _ ?_
    cases hn : enters n with
    | false => exact List.nil_sublist _
    | true =>
      rw [if_pos rfl, if_pos (h n hn)]
      apply List.Sublist.flatMap_right
      intro c hc
      exact ih c.2.size (hsize ▸ size_lt_of_mem_below hc) c.1 c.2 rfl

theorem visitWhere_sublist_visit (enters : Node → Bool) (path : Text) (n : Node) :
    visitWhere enters path n <+ visit path n := by
  rw [← visitWhere_true]
  exact visitWhere_sublist (fun _ _ => rfl) path n

/-- The visit from a node that a visit meets is part of that visit. -/
theorem visitWhere_sublist_of_mem {path : Text} {n : Node} {p : Text × Node}
    (hp : p ∈ visitWhere enters path n) :
    visitWhere enters p.1 p.2 <+ visitWhere enters path n := by
  induction hsize : n.size using Nat.strong_induction_on generalizing n path with
  | _ size ih =>
    rw [visitWhere_eq, List.mem_cons] at hp
    rcases hp with rfl | hp
    · exact List.Sublist.refl _
    · rw [visitWhere_eq enters path n]
      split at hp
      · rename_i hn
        obtain ⟨c, hc, hp⟩ := List.mem_flatMap.mp hp
        have hchild := ih c.2.size (hsize ▸ size_lt_of_mem_below hc) hp rfl
        have hall : visitWhere enters c.1 c.2 <+
            (below path n).flatMap fun c => visitWhere enters c.1 c.2 :=
          List.sublist_flatten_of_mem
            (List.mem_map_of_mem (f := fun c : Text × Node => visitWhere enters c.1 c.2) hc)
        rw [if_pos hn]
        exact (hchild.trans hall).cons _
      · cases hp

/-- A visit meets the nodes to which segments lead through nodes that let it go on. -/
theorem mem_visitWhere {n : Node} (h : n.Ordered) {path written : Text} {m : Node} :
    (written, m) ∈ visitWhere enters path n ↔
      ∃ segments, n.descend? segments = some m ∧ written = segments.foldl childPath path ∧
        n.Passes (enters · = true) segments := by
  induction hsize : n.size using Nat.strong_induction_on generalizing n path with
  | _ size ih =>
    rw [visitWhere_eq, List.mem_cons]
    constructor
    · rintro (heq | hmem)
      · cases heq
        exact ⟨[], rfl, rfl, Node.passes_nil⟩
      · split at hmem
        · rename_i hn
          obtain ⟨⟨_, c⟩, hc, hmem⟩ := List.mem_flatMap.mp hmem
          obtain ⟨segment, hchild, rfl⟩ := (mem_below_iff h).mp hc
          obtain ⟨segments, hm, hwritten, hpasses⟩ :=
            (ih c.size (hsize ▸ size_lt_of_mem_below hc) (h.child hchild) rfl).mp hmem
          refine ⟨segment :: segments, ?_, hwritten, Node.passes_cons.mpr ⟨hn, ?_⟩⟩
          · rw [Node.descend?_cons, hchild]
            exact hm
          · intro c' hc'
            cases hchild.symm.trans hc'
            exact hpasses
        · cases hmem
    · rintro ⟨segments, hm, rfl, hpasses⟩
      cases segments with
      | nil =>
        cases hm
        exact Or.inl rfl
      | cons segment segments =>
        obtain ⟨hn, hrest⟩ := Node.passes_cons.mp hpasses
        rw [Node.descend?_cons, Option.bind_eq_some_iff] at hm
        obtain ⟨c, hchild, hm⟩ := hm
        have hc : (childPath path segment, c) ∈ below path n :=
          (mem_below_iff h).mpr ⟨segment, hchild, rfl⟩
        refine Or.inr ?_
        rw [if_pos hn]
        refine List.mem_flatMap.mpr ⟨_, hc, ?_⟩
        exact (ih c.size (hsize ▸ size_lt_of_mem_below hc) (h.child hchild) rfl).mpr
          ⟨segments, hm, rfl, hrest c hchild⟩

end Walk

end DocComment
