import DocComment.Page
import DocComment.Proofs.PartialVisits
import DocComment.Proofs.SiblingOrder

/-! # The visible nodes

Directly after the visit of a node its children are the first that are pending, so passing over them
leaves out all that is below the node.  The visible nodes are therefore those of a recursive visit
that ends at concealed nodes, and the menu goes down the same way. -/

namespace DocComment
open scoped List

theorem Walk.length_below (path : Text) (n : Node) : (below path n).length = n.children.length := by
  have hperm := (below_perm path n).length_eq
  rwa [List.length_map] at hperm

theorem Walk.passOver_below (path : Text) (n : Node) (rest : List (Text × Node)) :
    (⟨below path n ++ rest⟩ : Walk).passOver n = ⟨rest⟩ := by
  have hlength := length_below path n
  rw [passOver, ← hlength, List.drop_left]

/-- The visible nodes with a block from a node down, each before those below it. -/
def shown (s : Settings) (path : Text) (n : Node) : List (Text × Node) :=
  if s.conceals n then []
  else (if n.block.isSome then [(path, n)] else []) ++
    (Walk.below path n).attach.flatMap fun c => shown s c.1.1 c.1.2
termination_by n.size
decreasing_by exact Walk.size_lt_of_mem_below c.2

theorem shown_of_conceals {s : Settings} {n : Node} (h : s.conceals n = true) (path : Text) :
    shown s path n = [] := by
  rw [shown, if_pos h]

theorem shown_of_not_conceals {s : Settings} {n : Node} (h : s.conceals n = false) (path : Text) :
    shown s path n = (if n.block.isSome then [(path, n)] else []) ++
      (Walk.below path n).flatMap fun c => shown s c.1 c.2 := by
  rw [shown, List.flatMap_subtype (g := fun c => shown s c.1 c.2) (fun _ _ => rfl),
    List.unattach_attach]
  simp [h]

private theorem visibleFrom_cons (s : Settings) (path : Text) (n : Node)
    (rest : List (Text × Node)) :
    visibleFrom s ⟨(path, n) :: rest⟩ =
      if s.conceals n then visibleFrom s ⟨rest⟩
      else (if n.block.isSome then [(path, n)] else []) ++
        visibleFrom s ⟨Walk.below path n ++ rest⟩ := by
  rw [visibleFrom]
  simp only [Walk.next?, Walk.passOver_below]
  split
  · rfl
  · split <;> rfl

/-- The pending nodes of a walk are visited in turn, each with what is visible from it down. -/
theorem visibleFrom_eq (s : Settings) (w : Walk) :
    visibleFrom s w = w.pending.flatMap fun p => shown s p.1 p.2 := by
  induction hsize : w.size using Nat.strong_induction_on generalizing w with
  | _ size ih =>
    obtain ⟨pending⟩ := w
    cases pending with
    | nil =>
      rw [visibleFrom]
      rfl
    | cons p rest =>
      obtain ⟨path, n⟩ := p
      have hnext : Walk.next? ⟨(path, n) :: rest⟩ =
          some ((path, n), ⟨Walk.below path n ++ rest⟩) := rfl
      have hlt := Walk.size_next? hnext
      rw [visibleFrom_cons, List.flatMap_cons]
      cases hc : s.conceals n with
      | true =>
        have hle := Walk.size_passOver ⟨Walk.below path n ++ rest⟩ n
        rw [Walk.passOver_below] at hle
        have hrest := ih _ (by omega) ⟨rest⟩ rfl
        rw [if_pos rfl, hrest, shown_of_conceals hc, List.nil_append]
      | false =>
        have hrest := ih _ (by omega) ⟨Walk.below path n ++ rest⟩ rfl
        rw [if_neg Bool.false_ne_true, hrest, shown_of_not_conceals hc, List.flatMap_append,
          List.append_assoc]

/-- The visible nodes are picked from a visit that goes on only where nothing is concealed. -/
theorem shown_eq (s : Settings) (path : Text) (n : Node) :
    shown s path n = (Walk.visitWhere (!s.conceals ·) path n).filter fun p =>
      p.2.block.isSome && !s.conceals p.2 := by
  induction hsize : n.size using Nat.strong_induction_on generalizing n path with
  | _ size ih =>
    rw [Walk.visitWhere_eq, List.filter_cons]
    cases hc : s.conceals n with
    | true => simp [shown_of_conceals hc]
    | false =>
      have hbelow : (Walk.below path n).flatMap (fun c => shown s c.1 c.2) =
          ((Walk.below path n).flatMap fun c => Walk.visitWhere (!s.conceals ·) c.1 c.2).filter
            fun p => p.2.block.isSome && !s.conceals p.2 := by
        rw [List.filter_flatMap]
        apply List.flatMap_congr
        intro c hmem
        exact ih c.2.size (hsize ▸ Walk.size_lt_of_mem_below hmem) c.1 c.2 rfl
      rw [shown_of_not_conceals hc, hbelow]
      cases n.block <;> rfl

/-- What is visible from a visible node down is part of what is visible. -/
theorem shown_sublist_of_mem {s : Settings} {path : Text} {n : Node} {p : Text × Node}
    (hp : p ∈ shown s path n) : shown s p.1 p.2 <+ shown s path n := by
  rw [shown_eq] at hp
  rw [shown_eq, shown_eq]
  exact (Walk.visitWhere_sublist_of_mem (List.mem_of_mem_filter hp)).filter _

theorem shown_sublist_visit (s : Settings) (path : Text) (n : Node) :
    shown s path n <+ Walk.visit path n := by
  rw [shown_eq]
  exact List.filter_sublist.trans (Walk.visitWhere_sublist_visit _ path n)

/-- A visible node holds a block and is not concealed. -/
theorem of_mem_shown {s : Settings} {path : Text} {n : Node} {p : Text × Node}
    (hp : p ∈ shown s path n) : p.2.block.isSome = true ∧ s.conceals p.2 = false := by
  rw [shown_eq, List.mem_filter] at hp
  simpa using hp.2

theorem Outline.visible_eq (o : Outline) (s : Settings) :
    o.visible s = (Walk.below [] o.root).flatMap fun c => shown s c.1 c.2 :=
  visibleFrom_eq s o.walk

theorem Outline.visible_sublist_items (o : Outline) (s : Settings) : o.visible s <+ o.walk.items := by
  have hitems := Walk.items_eq o.walk
  rw [visible_eq, hitems]
  exact List.Sublist.flatMap_right _ fun c _ => shown_sublist_visit s c.1 c.2

theorem Outline.mem_visible {o : Outline} {s : Settings} {p : Text × Node} (hp : p ∈ o.visible s) :
    p ∈ o.walk.items ∧ p.2.block.isSome = true ∧ s.conceals p.2 = false := by
  refine ⟨(o.visible_sublist_items s).subset hp, ?_⟩
  rw [visible_eq, List.mem_flatMap] at hp
  obtain ⟨c, -, hp⟩ := hp
  exact of_mem_shown hp

theorem Outline.shown_sublist_visible {o : Outline} {s : Settings} {p : Text × Node}
    (hp : p ∈ o.visible s) : shown s p.1 p.2 <+ o.visible s := by
  rw [visible_eq, List.mem_flatMap] at hp
  obtain ⟨c, hmem, hp⟩ := hp
  rw [visible_eq]
  exact (shown_sublist_of_mem hp).trans
    (List.sublist_flatten_of_mem (List.mem_map_of_mem (f := fun c => shown s c.1 c.2) hmem))

namespace MenuItem

theorem ofChildren_eq (s : Settings) (l : List (Text × Node)) :
    ofChildren s l = l.map fun c => (c.2, ofNode s c.2) := by
  induction l with
  | nil => rfl
  | cons c l ih => rw [ofChildren, ih, List.map_cons]

/-- The items below a node come in the order in which a walk visits its children. -/
theorem arrange_ofChildren (s : Settings) (path : Text) (n : Node) :
    arrange (ofChildren s n.children) =
      (Walk.below path n).flatMap fun c => ofNode s c.2 := by
  have hsort := map_sortBy (fun a b : Text × Node => a.2.precedes b.2)
    (fun a b : Node × List MenuItem => a.1.precedes b.1)
    (fun c => (c.2, ofNode s c.2)) (fun _ _ => rfl) n.children
  rw [arrange, ofChildren_eq, ← hsort, Walk.below, Node.ranked, ← List.map_reverse,
    ← List.map_reverse, List.flatMap_map, List.flatMap_map]

theorem ofNode_of_conceals {s : Settings} {n : Node} (h : s.conceals n = true) :
    ofNode s n = [] := by
  obtain ⟨block, number, children⟩ := n
  rw [ofNode.eq_def]
  exact if_pos h

theorem ofNode_of_not_conceals {s : Settings} {n : Node} (h : s.conceals n = false)
    (path : Text) :
    ofNode s n =
      let items := (Walk.below path n).flatMap fun c => ofNode s c.2
      match n.block with
      | none => items
      | some block => (ofBlock block items).toOption.toList := by
  have harrange := arrange_ofChildren s path n
  have hnot := Bool.eq_false_iff.mp h
  obtain ⟨block, number, children⟩ := n
  rw [ofNode.eq_def, ← harrange]
  cases block with
  | none => exact if_neg hnot
  | some block => exact if_neg hnot

end MenuItem

/-! ### Changes that a walk does not notice -/

/-- A change of nodes that a walk does not notice: from the nodes in `Q` down it goes on alike. -/
structure Walk.Unnoticed (f : Node → Node) (Q : Node → Prop) : Prop where
  below_eq : ∀ {n}, Q n → ∀ path, below path (f n) = (below path n).map fun c => (c.1, f c.2)
  down : ∀ {n}, Q n → ∀ {path c}, c ∈ below path n → Q c.2

namespace Walk.Unnoticed

variable {f : Node → Node} {Q : Node → Prop} (h : Unnoticed f Q)

include h

/-- What is said alike of every child before and after the change is said alike of all of them. -/
theorem flatMap_below {β : Type} {n : Node} (hn : Q n) {path : Text} {g g' : Text × Node → List β}
    (heq : ∀ c ∈ below path n, Q c.2 → g' (c.1, f c.2) = g c) :
    (below path (f n)).flatMap g' = (below path n).flatMap g := by
  rw [h.below_eq hn, List.flatMap_map]
  apply List.flatMap_congr
  intro c hc
  exact heq c hc (h.down hn hc)

theorem visit_eq {n : Node} (hn : Q n) (path : Text) :
    visit path (f n) = (visit path n).map fun p => (p.1, f p.2) := by
  induction hsize : n.size using Nat.strong_induction_on generalizing n path with
  | _ size ih =>
    have hbelow : (below path (f n)).flatMap (fun c => visit c.1 c.2) =
        (below path n).flatMap fun c => (visit c.1 c.2).map fun p => (p.1, f p.2) := by
      apply h.flatMap_below hn
      intro c hc hQ
      exact ih c.2.size (hsize ▸ size_lt_of_mem_below hc) hQ c.1 rfl
    rw [Walk.visit_eq, Walk.visit_eq, hbelow, List.map_cons, List.map_flatMap]

theorem of_mem_visit {n : Node} (hn : Q n) {path : Text} {p : Text × Node}
    (hp : p ∈ visit path n) : Q p.2 := by
  induction hsize : n.size using Nat.strong_induction_on generalizing n path with
  | _ size ih =>
    rw [Walk.visit_eq, List.mem_cons, List.mem_flatMap] at hp
    rcases hp with rfl | ⟨c, hc, hp⟩
    · exact hn
    · exact ih c.2.size (hsize ▸ size_lt_of_mem_below hc) (h.down hn hc) hp rfl

theorem items_eq {o o' : Outline} (hroot : o'.root = f o.root) (hQ : Q o.root) :
    o'.walk.items = o.walk.items.map fun p => (p.1, f p.2) := by
  have hitems : ∀ o : Outline,
      o.walk.items = (below [] o.root).flatMap fun c => visit c.1 c.2 := fun o =>
    o.walk.items_eq
  rw [hitems, hitems, hroot, List.map_flatMap]
  exact h.flatMap_below hQ fun c _ hc => h.visit_eq hc c.1

theorem of_mem_items {o : Outline} (hQ : Q o.root) {p : Text × Node} (hp : p ∈ o.walk.items) :
    Q p.2 := by
  rw [Walk.items_eq, List.mem_flatMap] at hp
  obtain ⟨c, hc, hp⟩ := hp
  exact h.of_mem_visit (h.down hQ hc) hp

variable {s : Settings} (hconceals : ∀ n, s.conceals (f n) = s.conceals n)

include hconceals

theorem shown_eq (hsome : ∀ n, (f n).block.isSome = n.block.isSome) {n : Node} (hn : Q n)
    (path : Text) : shown s path (f n) = (shown s path n).map fun p => (p.1, f p.2) := by
  induction hsize : n.size using Nat.strong_induction_on generalizing n path with
  | _ size ih =>
    have hsame := hconceals n
    cases hc : s.conceals n with
    | true => rw [shown_of_conceals hc, shown_of_conceals (hsame.trans hc), List.map_nil]
    | false =>
      have hbelow : (below path (f n)).flatMap (fun c => shown s c.1 c.2) =
          (below path n).flatMap fun c => (shown s c.1 c.2).map fun p => (p.1, f p.2) := by
        apply h.flatMap_below hn
        intro c hmem hQ
        exact ih c.2.size (hsize ▸ size_lt_of_mem_below hmem) hQ c.1 rfl
      rw [shown_of_not_conceals hc, shown_of_not_conceals (hsame.trans hc), hbelow,
        List.map_append, List.map_flatMap, hsome]
      cases n.block <;> rfl

theorem visible_eq (hsome : ∀ n, (f n).block.isSome = n.block.isSome) {o o' : Outline}
    (hroot : o'.root = f o.root) (hQ : Q o.root) :
    o'.visible s = (o.visible s).map fun p => (p.1, f p.2) := by
  rw [Outline.visible_eq, Outline.visible_eq, List.map_flatMap, hroot]
  exact h.flatMap_below hQ fun c _ hc => h.shown_eq hconceals hsome hc c.1

theorem ofNode_eq
    (hitems : ∀ n items,
      (f n).block.elim items (fun b => (MenuItem.ofBlock b items).toOption.toList) =
        n.block.elim items fun b => (MenuItem.ofBlock b items).toOption.toList)
    {n : Node} (hn : Q n) : MenuItem.ofNode s (f n) = MenuItem.ofNode s n := by
  induction hsize : n.size using Nat.strong_induction_on generalizing n with
  | _ size ih =>
    have hsame := hconceals n
    cases hc : s.conceals n with
    | true => rw [MenuItem.ofNode_of_conceals hc, MenuItem.ofNode_of_conceals (hsame.trans hc)]
    | false =>
      have hbelow : (below [] (f n)).flatMap (fun c => MenuItem.ofNode s c.2) =
          (below [] n).flatMap fun c => MenuItem.ofNode s c.2 := by
        apply h.flatMap_below hn
        intro c hmem hQ
        exact ih c.2.size (hsize ▸ size_lt_of_mem_below hmem) hQ rfl
      have hitem := hitems n ((below [] n).flatMap fun c => MenuItem.ofNode s c.2)
      rw [MenuItem.ofNode_of_not_conceals hc [],
        MenuItem.ofNode_of_not_conceals (hsame.trans hc) [], hbelow]
      cases hb : n.block <;> cases hb' : (f n).block <;> rw [hb, hb'] at hitem <;> exact hitem

end Walk.Unnoticed

namespace Outline

/-! ### Outlines with the same visible nodes -/

variable {o o' : Outline} {s s' : Settings} {f : Node → Node}
  (hvisible : o'.visible s' = (o.visible s).map fun p => (p.1, f p.2))

include hvisible

theorem searchIndex_of_visible : o'.searchIndex s' = o.searchIndex s := by
  rw [searchIndex, searchIndex, hvisible, List.map_map]
  rfl

theorem sections_of_visible (hblock : ∀ n, (f n).block = n.block) :
    o'.sections s' = o.sections s := by
  rw [sections, sections, hvisible, List.filterMap_map]
  simp [hblock]

theorem menu_of_visible (hblock : ∀ n, (f n).block = n.block)
    (hitems : ∀ p ∈ o.visible s, MenuItem.ofNode s' (f p.2) = MenuItem.ofNode s p.2) :
    o'.menu s' = o.menu s := by
  rw [menu, menu, hvisible, List.flatMap_map]
  apply List.flatMap_congr
  intro p hp
  simp only [hblock, hitems p hp]

theorem values_of_visible (hname : s'.name = s.name) (hmenu : o'.menu s' = o.menu s)
    (sections : List Section) : o'.values s' sections = o.values s sections := by
  have hindex := searchIndex_of_visible hvisible
  funext slot
  cases slot <;> simp only [values, searchText, hname, hmenu, hindex]

end Outline

end DocComment
