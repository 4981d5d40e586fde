import DocComment.Proofs.BatchSplitting
import DocComment.Proofs.ParsedSources
import DocComment.Proofs.OutlineShape

/-! # The first block and the last

Of the blocks for one path the rule `keep` leaves the first in the outline and the rule `replace` the
last.  So the two rules come to the same where one is given the blocks in the reverse of the other's
order, although the nodes are then created in other orders and other blocks are dropped. -/

namespace DocComment

namespace Register

/-- Read backwards, the first block for a path is the last. -/
theorem block?_replace_reverse (r : Register) (path : Text) :
    block? .replace r.reverse path = block? .keep r path := by
  simp only [block?, List.filter_reverse, List.map_reverse, List.getLast?_reverse]

/-- Only the rule `refuse` turns a block away. -/
theorem foldlM_accept_of_ne_refuse {rule : ClashRule} (h : rule ≠ .refuse)
    (r bindings : Register) : bindings.foldlM (accept rule) r = .ok (r ++ bindings) := by
  induction bindings generalizing r with
  | nil =>
    rw [List.append_nil]
    rfl
  | cons binding bindings ih =>
    have haccept : accept rule r binding = .ok (r ++ [binding]) := by
      unfold accept
      split
      · exact absurd rfl h
      · rfl
    rw [List.foldlM_cons, haccept, List.append_cons r binding bindings]
    exact ih (r ++ [binding])

end Register

namespace Outline

theorem resolve_reverse {blocks : List Block} {resolved : List (Text × Block)}
    (h : resolve blocks = .ok resolved) : resolve blocks.reverse = .ok resolved.reverse := by
  rw [resolve, mapM_eq_ok_iff] at h ⊢
  rw [List.map_reverse, h, List.map_reverse]

/-- Blocks that have paths, added where the first block of a path is kept, and the same blocks added
from the last to the first where later ones replace it, are all accepted, together or one at a time.
They give the same nodes with the same blocks, the same length and the same export. -/
theorem addAll_keep_reverse {blocks : List Block}
    (h : ∀ block ∈ blocks, ∃ path, block.path = .ok path) :
    let o := ((empty .keep).addAll blocks).1
    let o' := ((empty .replace).addAll blocks.reverse).1
    (((empty .keep).addAll blocks).2 = .ok () ∧
        (empty .keep).run (blocks.map .add) = (o, blocks.map fun _ => .ok ())) ∧
      (((empty .replace).addAll blocks.reverse).2 = .ok () ∧
        (empty .replace).run (blocks.reverse.map .add) =
          (o', blocks.reverse.map fun _ => .ok ())) ∧
      (∀ path, (o.node? path).map Node.block = (o'.node? path).map Node.block) ∧
      o.length = o'.length ∧ ∃ text, o.exportText = .ok text ∧ o'.exportText = .ok text := by
  intro o o'
  have h' : ∀ block ∈ blocks.reverse, ∃ path, block.path = .ok path := fun block hblock =>
    h block (List.mem_reverse.mp hblock)
  obtain ⟨resolved, hres⟩ := exists_resolve h
  obtain ⟨hok, htrie⟩ := addAll_empty_of_accepted .keep hres
    (Register.foldlM_accept_of_ne_refuse (by decide) [] resolved)
  obtain ⟨hok', htrie'⟩ := addAll_empty_of_accepted .replace (resolve_reverse hres)
    (Register.foldlM_accept_of_ne_refuse (by decide) [] resolved.reverse)
  have hshape : o.unnumbered = o'.unnumbered := by
    apply htrie.unnumbered_eq htrie'
    intro path
    rw [Register.block?_replace_reverse]
  refine ⟨⟨hok, ((empty .keep).addAll_singly h).1 hok⟩,
    ⟨hok', ((empty .replace).addAll_singly h').1 hok'⟩, ?_, ?_, ?_⟩
  · have hnode : ∀ (o : Outline) path,
        (o.unnumbered.node? path).map Node.block = (o.node? path).map Node.block := by
      intro o path
      rw [node?_unnumbered, Option.map_map]
      exact congrArg (Option.map · _) (funext Node.block_unnumbered)
    intro path
    rw [← hnode, hshape, hnode]
  · rw [htrie.length_eq, htrie'.length_eq, List.map_reverse, List.toFinset_reverse]
  · obtain ⟨text, htext⟩ := exists_render .keep (Request.atOwnPaths_addAll [blocks]) .json
      ⟨"API", none, false⟩
    refine ⟨text, htext, ?_⟩
    rw [← exportText_unnumbered, ← hshape, exportText_unnumbered]
    exact htext

/-- Of two modules `m` the one on line 1 counts both times, and the node of the method is created second
the first time and first the second time. -/
theorem addAll_keep_reverse_of_modules :
    let named (line : Nat) : Block :=
      ⟨⟨"f.js", line⟩, [], [(.moduleName, [[.tagged .moduleName (.label "m")]])]⟩
    let method : Block := ⟨⟨"f.js", 9⟩, [], [(.methodName, [[.tagged .methodName (.label "f")]]),
      (.memberOf, [[.tagged .memberOf (.label "n")]])]⟩
    let blocks := [named 1, named 5, method]
    let o := ((empty .keep).addAll blocks).1
    let o' := ((empty .replace).addAll blocks.reverse).1
    (∀ block ∈ blocks, ∃ path, block.path = .ok path) ∧
      (o.node? "m").map Node.number = some 0 ∧ (o'.node? "m").map Node.number = some 2 ∧
      (o'.node? "m").map Node.block = some (some (named 1)) ∧ o'.length = 2 ∧
      ∃ text, o.exportText = .ok text ∧ o'.exportText = .ok text := by
  intro named method blocks o o'
  have hpaths : ∀ block ∈ blocks, ∃ path, block.path = .ok path := by
    have hname : ∀ line, (named line).path = .ok "m" := fun _ => rfl
    have hmethod : method.path = .ok "n.f" := by decide +kernel
    simp [blocks, hname, hmethod]
  obtain ⟨-, -, hnode, -, hexport⟩ := addAll_keep_reverse hpaths
  have hblock : (o.node? "m").map Node.block = some (some (named 1)) := by decide +kernel
  refine ⟨hpaths, by decide +kernel, by decide +kernel, (hnode "m").symm.trans hblock, ?_, hexport⟩
  rw [length_eq]
  decide +kernel

end Outline

end DocComment
