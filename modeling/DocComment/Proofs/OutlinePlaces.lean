import DocComment.Proofs.ExportMirror
import DocComment.Proofs.SourcePlaces

/-! # Places in what is written

Adding blocks with their places moved gives the outline with all places moved.  Siblings are ranked by
their lines, so where the lines stay, nothing else of the page depends on places.  The exported data
have the file of each block in its entry, and nowhere else. -/

namespace DocComment

variable (f : Location → Location)

/-! ### Adding blocks -/

mutual

/-- The node with the places of its block, and of all below it, moved. -/
def Node.relocate : Node → Node
  | ⟨block, number, children⟩ => ⟨block.map (Block.relocate f), number, Node.relocateAll children⟩

def Node.relocateAll : List (Text × Node) → List (Text × Node)
  | [] => []
  | (segment, n) :: rest => (segment, n.relocate) :: Node.relocateAll rest

end

def Outline.relocate (o : Outline) : Outline := { o with root := o.root.relocate f }

namespace Node

theorem relocate_eq (n : Node) : n.relocate f = ⟨n.block.map (Block.relocate f), n.number,
    n.children.map fun c => (c.1, c.2.relocate f)⟩ := by
  have hall : ∀ l : List (Text × Node), relocateAll f l = l.map fun c => (c.1, c.2.relocate f) := by
    intro l
    induction l with
    | nil => rfl
    | cons c l ih => rw [relocateAll, ih, List.map_cons]
  obtain ⟨block, number, children⟩ := n
  rw [relocate, hall]

@[simp] theorem block_relocate (n : Node) :
    (n.relocate f).block = n.block.map (Block.relocate f) := by
  rw [relocate_eq]

theorem child?_relocate (n : Node) (segment : Text) :
    (n.relocate f).child? segment = (n.child? segment).map (relocate f) := by
  rw [child?, relocate_eq, Keyed.get?_map]
  rfl

theorem descend?_relocate (segments : List Text) (n : Node) :
    (n.relocate f).descend? segments = (n.descend? segments).map (relocate f) := by
  induction segments generalizing n with
  | nil => rfl
  | cons segment segments ih =>
    rw [descend?_cons, descend?_cons, child?_relocate]
    cases n.child? segment with
    | none => rfl
    | some child => exact ih child

theorem setChild_relocate (n : Node) (segment : Text) (child : Node) :
    (n.relocate f).setChild segment (child.relocate f) = (n.setChild segment child).relocate f := by
  have hinsert := Keyed.insert_map (fun _ c => relocate f c) segment child n.children
  rw [relocate_eq f n, relocate_eq f (n.setChild segment child), setChild, setChild, ← hinsert]

theorem file_relocate (block : Block) (segments : List Text) (next : Nat) (n : Node) :
    (n.relocate f).file (block.relocate f) segments next =
      ((n.file block segments next).1.relocate f, (n.file block segments next).2) := by
  induction segments generalizing next n with
  | nil =>
    rw [file, file, relocate_eq, relocate_eq]
    rfl
  | cons segment rest ih =>
    rw [file, file, child?_relocate]
    cases n.child? segment with
    | some child =>
      simp only [Option.map_some, ih]
      exact Prod.ext (setChild_relocate f n segment _) rfl
    | none =>
      have hnew : ({ number := next } : Node).relocate f = { number := next } := by
        rw [relocate_eq]
        rfl
      have hchild := ih (next + 1) { number := next }
      rw [hnew] at hchild
      simp only [Option.map_none, hchild]
      exact Prod.ext (setChild_relocate f n segment _) rfl

end Node

namespace Outline

theorem block?_relocate (o : Outline) (path : Text) :
    (o.relocate f).block? path = (o.block? path).map (Block.relocate f) := by
  rw [block?, node?, relocate, Node.descend?_relocate, block?, node?]
  cases o.root.descend? (path.splitOn '.') with
  | none => rfl
  | some n => exact n.block_relocate f

theorem file_relocate (o : Outline) (path : Text) (block : Block) :
    (o.relocate f).file path (block.relocate f) = (o.file path block).relocate f := by
  simp only [file, relocate, Node.file_relocate]

theorem addAt_relocate (o : Outline) (path : Text) (block : Block) :
    (o.relocate f).addAt path (block.relocate f) =
      ((o.addAt path block).1.relocate f, relocateOutcome f id (o.addAt path block).2) := by
  have hrule : (o.relocate f).rule = o.rule := rfl
  rw [addAt, addAt, block?_relocate, hrule]
  cases o.block? path with
  | none =>
    simp only [Option.map_none, file_relocate]
    rfl
  | some earlier =>
    cases o.rule with
    | replace =>
      simp only [Option.map_some, file_relocate]
      rfl
    | keep => rfl
    | refuse => rfl

theorem addEach_relocate (o : Outline) (resolved : List (Text × Block)) :
    (o.relocate f).addEach (resolved.map fun b => (b.1, b.2.relocate f)) =
      ((o.addEach resolved).1.relocate f, relocateOutcome f id (o.addEach resolved).2) := by
  induction resolved generalizing o with
  | nil => rfl
  | cons binding resolved ih =>
    obtain ⟨path, block⟩ := binding
    rw [List.map_cons, addEach, addEach, addAt_relocate]
    rcases o.addAt path block with ⟨later, outcome⟩
    cases outcome with
    | error e => rfl
    | ok _ => exact ih later

theorem resolve_relocate (blocks : List Block) :
    resolve (blocks.map (Block.relocate f)) =
      relocateOutcome f (List.map fun b => (b.1, b.2.relocate f)) (resolve blocks) := by
  apply relocateOutcome_mapM
  intro block
  rw [block.path_relocate f]
  cases block.path <;> rfl

/-- Blocks with their places moved are added, or refused, as they are without. -/
theorem addAll_relocate (o : Outline) (blocks : List Block) :
    (o.relocate f).addAll (blocks.map (Block.relocate f)) =
      ((o.addAll blocks).1.relocate f, relocateOutcome f id (o.addAll blocks).2) := by
  rw [addAll_eq, addAll_eq, resolve_relocate]
  cases resolve blocks with
  | error e => rfl
  | ok resolved =>
    simp only [relocateOutcome, addTogether, addEach_relocate]
    rcases o.addEach resolved with ⟨later, outcome⟩
    cases outcome <;> rfl

theorem empty_relocate (rule : ClashRule) : (empty rule).relocate f = empty rule := by
  rw [relocate, Node.relocate_eq]
  rfl

end Outline

/-! ### The page -/

theorem Section.ofBlock_relocate (b : Block) :
    ofBlock (b.relocate f) = relocateOutcome f id (ofBlock b) :=
  relocateOutcome_bind (b.kind_relocate f) fun _ =>
    relocateOutcome_bind (b.path_relocate f) fun _ =>
      relocateOutcome_bind (b.id_relocate f) fun _ => rfl

theorem MenuItem.ofBlock_relocate (b : Block) (items : List MenuItem) :
    ofBlock (b.relocate f) items = relocateOutcome f id (ofBlock b items) :=
  relocateOutcome_bind (b.kind_relocate f) fun _ =>
    relocateOutcome_bind (b.path_relocate f) fun _ =>
      relocateOutcome_bind (b.id_relocate f) fun _ => rfl

theorem Settings.conceals_relocate (s : Settings) (n : Node) :
    s.conceals (n.relocate f) = s.conceals n := by
  rw [conceals, conceals, Node.block_relocate]
  cases n.block <;> rfl

section Lines

variable {f} (hline : ∀ place, (f place).line = place.line)

include hline

theorem Node.precedes_relocate (a b : Node) : (a.relocate f).precedes (b.relocate f) = a.precedes b := by
  have hlines : ∀ n : Node, (n.relocate f).line = n.line := by
    intro n
    rw [line, line, block_relocate]
    cases n.block with
    | none => rfl
    | some block => exact hline block.place
  have hnumber : ∀ n : Node, (n.relocate f).number = n.number := by
    intro n
    rw [relocate_eq]
  simp only [precedes, hlines, hnumber, block_relocate, Option.isSome_map]

theorem Walk.unnoticed_relocate : Unnoticed (Node.relocate f) fun _ => True where
  below_eq := by
    intro n _ path
    have hranked : (n.relocate f).ranked = n.ranked.map fun c => (c.1, c.2.relocate f) := by
      rw [Node.ranked, Node.ranked, Node.relocate_eq]
      exact (map_sortBy _ _ _ (fun a b => Node.precedes_relocate hline a.2 b.2) _).symm
    rw [below, below, hranked, List.map_map, List.map_reverse, List.map_map]
    rfl
  down := fun _ _ _ _ => trivial

namespace Outline

theorem visible_relocate (o : Outline) (s : Settings) :
    (o.relocate f).visible s = (o.visible s).map fun p => (p.1, p.2.relocate f) := by
  apply (Walk.unnoticed_relocate hline).visible_eq (s.conceals_relocate f) _ rfl trivial
  intro n
  rw [Node.block_relocate, Option.isSome_map]

theorem menu_relocate (o : Outline) (s : Settings) : (o.relocate f).menu s = o.menu s := by
  have hitems : ∀ n, MenuItem.ofNode s (n.relocate f) = MenuItem.ofNode s n := by
    intro n
    apply (Walk.unnoticed_relocate hline).ofNode_eq (s.conceals_relocate f) _ trivial
    intro n items
    rw [Node.block_relocate]
    cases n.block with
    | none => rfl
    | some b => simp [MenuItem.ofBlock_relocate, toOption_relocateOutcome]
  rw [menu, menu, visible_relocate hline, List.flatMap_map]
  apply List.flatMap_congr
  rintro ⟨path, n⟩ _
  dsimp only
  rw [hitems, Node.block_relocate]
  cases n.block with
  | none => rfl
  | some b =>
    simp only [Option.map_some, Block.kind_relocate]
    cases b.kind <;> rfl

theorem sections_relocate (o : Outline) (s : Settings) :
    (o.relocate f).sections s = relocateOutcome f id (o.sections s) := by
  have hblocks : ((o.relocate f).visible s).filterMap (fun p => p.2.block) =
      ((o.visible s).filterMap fun p => p.2.block).map (Block.relocate f) := by
    rw [visible_relocate hline, List.filterMap_map, List.map_filterMap]
    simp only [Function.comp_def, Node.block_relocate]
  have hsections := relocateOutcome_mapM (Section.ofBlock_relocate f)
    ((o.visible s).filterMap fun p => p.2.block)
  rw [List.map_id_fun] at hsections
  rw [sections, hblocks]
  exact hsections

/-- Where the lines stay, moving the places of an outline leaves its page as it is. -/
theorem page_relocate (o : Outline) (s : Settings) :
    (o.relocate f).page s = relocateOutcome f id (o.page s) := by
  have hvalues := values_of_visible (visible_relocate hline o s) rfl (menu_relocate hline o s)
  simp only [page, sections_relocate hline, hvalues]
  cases o.sections s with
  | error e => rfl
  | ok sections => simp only [relocateOutcome, bind, Except.bind, pure, Except.pure, id_eq]

end Outline

end Lines

/-! ### The exported data -/

/-- The place in another file. -/
def Location.inFile (file : Text) (place : Location) : Location := { place with file }

namespace Json

variable (file : Text)

/-- An exported block with another file. -/
def withFile : Json → Json
  | .obj fields =>
    .obj (fields.map fun p => (p.1, if p.1 = ("file" : Text) then .str file else p.2))
  | value => value

mutual

/-- Exported segments with another file in all entries. -/
def inFile : Json → Json
  | .obj nodes => .obj (nodesInFile nodes)
  | value => value

def nodesInFile : List (Text × Json) → List (Text × Json)
  | [] => []
  | (segment, node) :: rest => (segment, nodeInFile node) :: nodesInFile rest

def nodeInFile : Json → Json
  | .obj fields => .obj (fieldsInFile fields)
  | value => value

def fieldsInFile : List (Text × Json) → List (Text × Json)
  | [] => []
  | (name, value) :: rest =>
    (name, if name = ("children" : Text) then inFile value
      else if name = ("entry" : Text) then value.withFile file else value) :: fieldsInFile rest

end

theorem withFile_object (fields : List (Text × Json)) :
    (object fields).withFile file =
      object (fields.map fun p => (p.1, if p.1 = ("file" : Text) then .str file else p.2)) := by
  rw [object, object, withFile]
  exact congrArg obj (Keyed.ofList_map (fun name value =>
    if name = ("file" : Text) then .str file else value) fields).symm

theorem nodeInFile_object (fields : List (Text × Json)) :
    (object fields).nodeInFile file = object (fieldsInFile file fields) := by
  let change (name : Text) (value : Json) : Json :=
    if name = ("children" : Text) then value.inFile file
    else if name = ("entry" : Text) then value.withFile file else value
  have hmap : ∀ l : List (Text × Json),
      fieldsInFile file l = l.map fun p => (p.1, change p.1 p.2) := by
    intro l
    induction l with
    | nil => rfl
    | cons p l ih => rw [fieldsInFile, ih, List.map_cons]
  rw [object, object, nodeInFile, hmap, hmap, Keyed.ofList_map]

end Json

theorem Block.parent_relocate (b : Block) :
    (b.relocate f).parent = relocateOutcome f (fun parent => parent) b.parent :=
  relocateOutcome_bind (b.parentPath_relocate f) fun _ => rfl

theorem Block.exportJson_inFile (file : Text) (b : Block) :
    (b.relocate (·.inFile file)).exportJson =
      relocateOutcome (·.inFile file) (Json.withFile file) b.exportJson := by
  refine relocateOutcome_bind (b.kind_relocate _) fun kind => ?_
  refine relocateOutcome_bind (b.id_relocate _) fun name => ?_
  refine relocateOutcome_bind (b.path_relocate _) fun path => ?_
  refine relocateOutcome_bind (b.parent_relocate _) fun parent => ?_
  simp only [relocateOutcome, pure, Except.pure, Json.withFile_object]
  rfl

mutual

theorem Node.exportJson_inFile (file : Text) : ∀ n : Node,
    (n.relocate (·.inFile file)).exportJson =
      relocateOutcome (·.inFile file) (Json.nodeInFile file) n.exportJson
  | ⟨block, number, children⟩ => by
    rw [Node.relocate, Node.exportJson_eq, Node.exportJson_eq]
    have hentry : Node.exportEntry ⟨block.map (Block.relocate (·.inFile file)), number,
          Node.relocateAll (·.inFile file) children⟩ =
        relocateOutcome (·.inFile file) (Json.withFile file)
          (Node.exportEntry ⟨block, number, children⟩) := by
      cases block with
      | none => rfl
      | some block => exact block.exportJson_inFile file
    refine relocateOutcome_bind hentry fun entry => ?_
    refine relocateOutcome_bind (Node.exportChildren_inFile file children) fun nodes => ?_
    simp only [relocateOutcome, pure, Except.pure, Json.nodeInFile_object]
    rfl

theorem Node.exportChildren_inFile (file : Text) : ∀ l : List (Text × Node),
    Node.exportChildren (Node.relocateAll (·.inFile file) l) =
      relocateOutcome (·.inFile file) (Json.nodesInFile file) (Node.exportChildren l)
  | [] => rfl
  | (segment, n) :: rest => by
    rw [Node.relocateAll, Node.exportChildren, Node.exportChildren]
    refine relocateOutcome_bind (Node.exportJson_inFile file n) fun value => ?_
    exact relocateOutcome_bind (Node.exportChildren_inFile file rest) fun others => rfl

end

/-- Moving an outline to another file changes the files of the exported entries, and nothing else. -/
theorem Outline.exportJson_inFile (file : Text) (o : Outline) :
    (o.relocate (·.inFile file)).exportJson =
      relocateOutcome (·.inFile file) (Json.inFile file) o.exportJson := by
  obtain ⟨⟨block, number, children⟩, nextNumber, rule⟩ := o
  rw [relocate, exportJson, exportJson, Node.relocate, Node.exportChildren_inFile]
  cases Node.exportChildren children <;> rfl

end DocComment
