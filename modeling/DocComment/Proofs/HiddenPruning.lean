import DocComment.Page
import DocComment.Proofs.VisibleNodes

/-! # Hidden blocks leave no trace

Deleting the hidden nodes from an outline, each with all that is below it, and then showing
everything gives what hiding them gives.  Siblings are ranked with the hidden ones among them, so this
rests on a stable sort: the others keep their order without them. -/

namespace DocComment

def Node.isHidden (n : Node) : Bool := n.block.any Block.isHidden

mutual

/-- The node without the hidden nodes below it and all that is below those. -/
def Node.pruned : Node → Node
  | ⟨block, number, children⟩ => ⟨block, number, Node.prunedAll children⟩

def Node.prunedAll : List (Text × Node) → List (Text × Node)
  | [] => []
  | (segment, n) :: rest =>
    if n.isHidden then Node.prunedAll rest else (segment, n.pruned) :: Node.prunedAll rest

end

def Outline.pruned (o : Outline) : Outline := { o with root := o.root.pruned }

namespace Node

@[simp] theorem block_pruned (n : Node) : n.pruned.block = n.block := by
  cases n
  rw [pruned]

@[simp] theorem number_pruned (n : Node) : n.pruned.number = n.number := by
  cases n
  rw [pruned]

theorem children_pruned (n : Node) :
    n.pruned.children = (n.children.filter (!·.2.isHidden)).map fun c => (c.1, c.2.pruned) := by
  obtain ⟨block, number, children⟩ := n
  rw [pruned]
  change prunedAll children = (children.filter (!·.2.isHidden)).map fun c => (c.1, c.2.pruned)
  induction children with
  | nil => rfl
  | cons c children ih =>
    obtain ⟨segment, n⟩ := c
    cases h : n.isHidden <;> simp [prunedAll, h, ih]

theorem precedes_pruned (a b : Node) : a.pruned.precedes b.pruned = a.precedes b := by
  have hline : ∀ n : Node, n.pruned.line = n.line := fun n => by rw [line, line, block_pruned]
  simp only [precedes, hline, block_pruned, number_pruned]

theorem ranked_pruned (n : Node) :
    n.pruned.ranked = (n.ranked.filter (!·.2.isHidden)).map fun c => (c.1, c.2.pruned) := by
  have hmap := map_sortBy (fun a b : Text × Node => a.2.precedes b.2)
    (fun a b : Text × Node => a.2.precedes b.2) (fun c => (c.1, c.2.pruned))
    (fun a b => precedes_pruned a.2 b.2) (n.children.filter (!·.2.isHidden))
  have hfilter := filter_sortBy (fun a b : Text × Node => a.2.precedes b.2)
    (fun a b => precedes_total a.2 b.2) (fun a b c => precedes_trans a.2 b.2 c.2)
    (!·.2.isHidden) n.children
  rw [ranked, ranked, children_pruned, ← hmap, hfilter]

end Node

theorem Walk.below_pruned (path : Text) (n : Node) :
    below path n.pruned =
      ((below path n).filter (!·.2.isHidden)).map fun c => (c.1, c.2.pruned) := by
  rw [below, below, Node.ranked_pruned]
  simp only [List.map_map, List.filter_reverse, List.filter_map, List.map_reverse]
  rfl

private theorem flatMap_filter_eq {α β : Type} {p : α → Bool} {f : α → List β} {l : List α}
    (h : ∀ a ∈ l, p a = false → f a = []) : (l.filter p).flatMap f = l.flatMap f := by
  induction l with
  | nil => rfl
  | cons a l ih =>
    obtain ⟨ha, hl⟩ := List.forall_mem_cons.mp h
    cases hp : p a with
    | true => simp [hp, ih hl]
    | false => simp [hp, ih hl, ha hp]

section Pruning

variable {hide all : Settings} (hhide : hide.showPrivate = false) (hall : all.showPrivate = true)

include hhide in
theorem conceals_of_hide (n : Node) : hide.conceals n = n.isHidden := by
  simp [Settings.conceals, Node.isHidden, hhide]

include hall in
theorem conceals_of_all (n : Node) : all.conceals n = false := by
  simp [Settings.conceals, hall]

include hhide in
/-- What is said of every child that is not hidden is said of every child of the pruned node. -/
theorem flatMap_below_pruned {β : Type} {path : Text} {n : Node} {f g : Text × Node → List β}
    (hnil : ∀ c, hide.conceals c.2 = true → f c = [])
    (heq : ∀ c ∈ Walk.below path n, c.2.isHidden = false → g (c.1, c.2.pruned) = f c) :
    (Walk.below path n.pruned).flatMap g = (Walk.below path n).flatMap f := by
  have hfilter : ((Walk.below path n).filter (!·.2.isHidden)).flatMap f =
      (Walk.below path n).flatMap f := by
    apply flatMap_filter_eq
    intro c _ hc
    apply hnil
    rw [conceals_of_hide hhide]
    simpa using hc
  rw [Walk.below_pruned, List.flatMap_map, ← hfilter]
  apply List.flatMap_congr
  intro c hc
  obtain ⟨hmem, hvisible⟩ := List.mem_filter.mp hc
  exact heq c hmem (by simpa using hvisible)

include hhide hall in
theorem shown_pruned (path : Text) {n : Node} (hn : n.isHidden = false) :
    shown all path n.pruned = (shown hide path n).map fun p => (p.1, p.2.pruned) := by
  induction hsize : n.size using Nat.strong_induction_on generalizing n path with
  | _ size ih =>
    have hc : hide.conceals n = false := by rw [conceals_of_hide hhide, hn]
    have hbelow : (Walk.below path n.pruned).flatMap (fun c => shown all c.1 c.2) =
        (Walk.below path n).flatMap fun c =>
          (shown hide c.1 c.2).map fun p => (p.1, p.2.pruned) := by
      apply flatMap_below_pruned hhide
      · intro c hc
        rw [shown_of_conceals hc, List.map_nil]
      · intro c hmem hvisible
        exact ih c.2.size (hsize ▸ Walk.size_lt_of_mem_below hmem) c.1 hvisible rfl
    rw [shown_of_not_conceals hc, shown_of_not_conceals (conceals_of_all hall _), hbelow,
      List.map_append, List.map_flatMap, Node.block_pruned]
    cases n.block <;> rfl

include hhide hall in
theorem visible_pruned (o : Outline) :
    o.pruned.visible all = (o.visible hide).map fun p => (p.1, p.2.pruned) := by
  rw [Outline.visible_eq, Outline.visible_eq, List.map_flatMap]
  apply flatMap_below_pruned hhide
  · intro c hc
    rw [shown_of_conceals hc, List.map_nil]
  · intro c _ hc
    exact shown_pruned hhide hall c.1 hc

include hhide hall in
theorem ofNode_pruned {n : Node} (hn : n.isHidden = false) :
    MenuItem.ofNode all n.pruned = MenuItem.ofNode hide n := by
  induction hsize : n.size using Nat.strong_induction_on generalizing n with
  | _ size ih =>
    have hc : hide.conceals n = false := by rw [conceals_of_hide hhide, hn]
    have hbelow : (Walk.below [] n.pruned).flatMap (fun c => MenuItem.ofNode all c.2) =
        (Walk.below [] n).flatMap fun c => MenuItem.ofNode hide c.2 := by
      apply flatMap_below_pruned hhide
      · intro c hc
        exact MenuItem.ofNode_of_conceals hc
      · intro c hmem hvisible
        exact ih c.2.size (hsize ▸ Walk.size_lt_of_mem_below hmem) hvisible rfl
    rw [MenuItem.ofNode_of_not_conceals hc [],
      MenuItem.ofNode_of_not_conceals (conceals_of_all hall _) [], hbelow, Node.block_pruned]

include hhide hall in
theorem menu_pruned (o : Outline) : o.pruned.menu all = o.menu hide := by
  apply Outline.menu_of_visible (visible_pruned hhide hall o) Node.block_pruned
  intro p hp
  have hvisible := (Outline.mem_visible hp).2.2
  rw [conceals_of_hide hhide] at hvisible
  exact ofNode_pruned hhide hall hvisible

include hhide hall in
theorem sections_pruned (o : Outline) : o.pruned.sections all = o.sections hide :=
  Outline.sections_of_visible (visible_pruned hhide hall o) Node.block_pruned

include hhide hall in
theorem searchIndex_pruned (o : Outline) : o.pruned.searchIndex all = o.searchIndex hide :=
  Outline.searchIndex_of_visible (visible_pruned hhide hall o)

end Pruning

/-- The page and the search index that hide private blocks are those that show everything of the
outline from which the hidden nodes have been deleted. -/
theorem Outline.page_pruned (o : Outline) (name : Text) (template : Option Text) :
    o.page ⟨name, template, false⟩ = o.pruned.page ⟨name, template, true⟩ ∧
      o.searchIndex ⟨name, template, false⟩ = o.pruned.searchIndex ⟨name, template, true⟩ := by
  have hmenu : o.pruned.menu ⟨name, template, true⟩ = o.menu ⟨name, template, false⟩ :=
    menu_pruned rfl rfl o
  have hsections : o.pruned.sections ⟨name, template, true⟩ =
      o.sections ⟨name, template, false⟩ := sections_pruned rfl rfl o
  have hindex : o.pruned.searchIndex ⟨name, template, true⟩ =
      o.searchIndex ⟨name, template, false⟩ := searchIndex_pruned rfl rfl o
  have hvisible : o.pruned.visible ⟨name, template, true⟩ =
      (o.visible ⟨name, template, false⟩).map fun p => (p.1, p.2.pruned) := visible_pruned rfl rfl o
  have hvalues := values_of_visible hvisible rfl hmenu
  refine ⟨?_, hindex.symm⟩
  simp only [page, hsections, hvalues]

end DocComment
