import DocComment.Proofs.BlockIdentity
import DocComment.Proofs.OutlineFiling
import DocComment.Proofs.PartialVisits

/-! # A block below its parent

The path of a block that is no module is put together with a dot and taken apart at all dots.  Its
segments are those of the parent followed by those of the block's own name, wherever further dots stand
in either of them.  So the way to an added block leads through the node of its parent. -/

namespace DocComment

namespace Block

/-- The path of a block that is no module is that of its parent, continued by its name. -/
theorem exists_parentPath {b : Block} {path : Text} (hkind : b.kind ≠ .ok .moduleBlock)
    (hpath : b.path = .ok path) :
    ∃ p id, b.parentPath = .ok (some p) ∧ b.id = .ok id ∧ path = p ++ '.' :: id := by
  cases hk : b.kind with
  | error e =>
    rw [(unidentified hk).2.1] at hpath
    cases hpath
  | ok kind =>
    have hne : kind ≠ .moduleBlock := fun h => hkind (h ▸ hk)
    have hid : b.id = .ok ((b.firstName? kind.tag).getD []) := by
      rw [Block.id, hk]
      rfl
    cases hparent : parentTags.findSome? b.firstName? with
    | none =>
      rw [(orphaned hk hne hid hparent).1] at hpath
      cases hpath
    | some p =>
      rw [(below hk hne hid hparent).1] at hpath
      exact ⟨p, _, by rw [parentPath_eq hk hne, hparent], hid, (Except.ok.inj hpath).symm⟩

theorem parent_eq_segment {b : Block} {p segment : Text} {before : List Text}
    (hparent : b.parentPath = .ok (some p)) (hsplit : p.splitOn '.' = before ++ [segment]) :
    b.parent = .ok (some segment) := by
  rw [parent, hparent]
  have hlast : (p.splitOn '.').getLastD p = segment := by rw [hsplit, List.getLastD_concat]
  rw [← hlast]
  rfl

end Block

namespace Node

/-- The way to a node along segments that are not empty ends in a child. -/
theorem exists_child?_of_descend?_concat {n m : Node} {before : List Text} {segment : Text}
    (h : n.descend? (before ++ [segment]) = some m) :
    ∃ holder, n.descend? before = some holder ∧ holder.child? segment = some m := by
  rw [descend?_append, Option.bind_eq_some_iff] at h
  obtain ⟨holder, hholder, hchild⟩ := h
  rw [descend?_cons] at hchild
  obtain ⟨child, hc, hm⟩ := Option.bind_eq_some_iff.mp hchild
  cases hm
  exact ⟨holder, hholder, hc⟩

end Node

namespace Outline

/-- Where a block has been added there is a block: it, unless an earlier one is kept. -/
theorem block?_addAt {o : Outline} {path : Text} {b : Block} (h : (o.addAt path b).2 = .ok ()) :
    (o.addAt path b).1.block? path = some (if o.rule = .keep then (o.block? path).getD b else b) := by
  cases hold : o.block? path with
  | none => simp [addAt, hold, block?_file]
  | some earlier =>
    cases hrule : o.rule with
    | replace => simp [addAt, hold, hrule, block?_file]
    | keep => simp [addAt, hold, hrule]
    | refuse =>
      simp only [addAt, hold, hrule] at h
      cases h

theorem node?_append (o : Outline) (p id : Text) :
    o.node? (p ++ '.' :: id) = (o.node? p).bind (Node.descend? (id.splitOn '.')) := by
  rw [node?, Text.splitOn_append_cons, Node.descend?_append]
  rfl

/-- A block that is no module and has been added is found below the node of its parent, along the
segments of its own name.  The last segment of the parent's path is the block's parent, and under it
the parent's node stands among the children of another node. -/
theorem add_below_parent (o : Outline) {b : Block} {path : Text}
    (hkind : b.kind ≠ .ok .moduleBlock) (hpath : b.path = .ok path)
    (hadd : (o.add b).2 = .ok ()) :
    let later := (o.add b).1
    ∃ p id, b.parentPath = .ok (some p) ∧ b.id = .ok id ∧ path = p ++ '.' :: id ∧
      ∃ parent node, later.node? p = some parent ∧
        parent.descend? (id.splitOn '.') = some node ∧ later.node? path = some node ∧
        node.block = some (if o.rule = .keep then (o.block? path).getD b else b) ∧
        ∃ before segment holder, p.splitOn '.' = before ++ [segment] ∧
          b.parent = .ok (some segment) ∧ later.root.descend? before = some holder ∧
          holder.child? segment = some parent := by
  intro later
  obtain ⟨p, id, hparentPath, hid, rfl⟩ := b.exists_parentPath hkind hpath
  have hserve : o.add b = o.addAt (p ++ '.' :: id) b := by rw [add, hpath]
  rw [hserve] at hadd
  have hblock : later.block? (p ++ '.' :: id) =
      some (if o.rule = .keep then (o.block? (p ++ '.' :: id)).getD b else b) := by
    simp only [later]
    rw [hserve, block?_addAt hadd]
  obtain ⟨node, hnode, hnodeBlock⟩ := Option.bind_eq_some_iff.mp hblock
  -- The way to the block splits at the end of the parent's path, and that path before its last segment.
  have hway : (later.node? p).bind (Node.descend? (id.splitOn '.')) = some node := by
    rw [← node?_append, hnode]
  obtain ⟨parent, hparent, hdescend⟩ := Option.bind_eq_some_iff.mp hway
  obtain ⟨before, segment, hsplit⟩ :=
    (List.eq_nil_or_concat' (p.splitOn '.')).resolve_left (Text.splitOn_ne_nil '.' p)
  have hstored : later.root.descend? (before ++ [segment]) = some parent := by
    rw [← hsplit, ← hparent, node?]
  obtain ⟨holder, hholder, hchild⟩ := Node.exists_child?_of_descend?_concat hstored
  refine ⟨p, id, hparentPath, hid, rfl, parent, node, hparent, hdescend, hnode, hnodeBlock, ?_⟩
  exact ⟨before, segment, holder, hsplit, Block.parent_eq_segment hparentPath hsplit, hholder,
    hchild⟩

/-- The dots at the end of the parent's path and at the beginning of the name count, and an earlier
block is kept. -/
theorem add_below_parent_of_dots :
    let b : Block := ⟨⟨"f.js", 3⟩, [], [(.methodName, [[.tagged .methodName (.label ".b")]]),
      (.memberOf, [[.tagged .memberOf (.label "a.")]])]⟩
    let earlier : Block := ⟨⟨"e.js", 1⟩, [], [(.moduleName, [[.tagged .moduleName (.label "a...b")]])]⟩
    let o := ((empty .keep).add earlier).1
    let later := (o.add b).1
    b.kind ≠ .ok .moduleBlock ∧ b.path = .ok "a...b" ∧ (o.add b).2 = .ok () ∧
      ∃ parent node, later.node? "a." = some parent ∧ parent.descend? [[], "b"] = some node ∧
        later.node? "a...b" = some node ∧ node.block = some earlier ∧ b.parent = .ok (some []) := by
  intro b earlier o later
  have hkind : b.kind ≠ .ok .moduleBlock := by decide
  have hpath : b.path = .ok "a...b" := by decide
  have hadd : (o.add b).2 = .ok () := by decide
  obtain ⟨p, id, hp, hid, -, parent, node, hparent, hdescend, hnode, hblock, -⟩ :=
    add_below_parent o hkind hpath hadd
  obtain rfl : "a.".toList = p := Option.some.inj (Except.ok.inj hp)
  obtain rfl : ".b".toList = id := Except.ok.inj hid
  have hkept : o.block? "a...b" = some earlier := by decide
  rw [hkept] at hblock
  exact ⟨hkind, hpath, hadd, parent, node, hparent, hdescend, hnode, hblock, by decide⟩

end Outline

end DocComment
