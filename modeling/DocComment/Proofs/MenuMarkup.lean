import DocComment.Proofs.MenuEntries

/-! # The written menu

The markup of a menu is a row of pieces.  Each entry has one piece, a link or the box that folds a group
together with its label, and around the entries of a group stand an opening and a closing tag.  So the
addresses of the links and the names of the boxes are those of the entries. -/

namespace DocComment

namespace MenuEntry

/-- The name that a link to the block of the entry uses. -/
def target (e : MenuEntry) : Text := "api-" ++ e.path

/-- The name of the box that folds the entry, where it heads a group. -/
def checkbox? (e : MenuEntry) : Option Text := e.level?.map (· ++ '-' :: e.path)

/-- What a menu writes for the entry itself. -/
def text (e : MenuEntry) : Text :=
  match e.checkbox? with
  | none => List.flatten ["<a href='#", e.target, "'>", e.id, "</a>"]
  | some box => List.flatten ["<input id='", box, "' type='checkbox'></input>",
      "<label for='", box, "'>", e.id, "</label>"]

end MenuEntry

inductive MenuPiece where
  | entry (e : MenuEntry)
  | opening (level : Text)
  | closing

namespace MenuPiece

def text : MenuPiece → Text
  | entry e => e.text
  | opening level => List.flatten ["<div class='", level, "'>"]
  | closing => "</div>"

@[simp] theorem text_entry (e : MenuEntry) : (entry e).text = e.text := rfl

@[simp] theorem text_opening (level : Text) :
    (opening level).text = List.flatten ["<div class='", level, "'>"] := rfl

@[simp] theorem text_closing : closing.text = "</div>".toList := rfl

def entry? : MenuPiece → Option MenuEntry
  | entry e => some e
  | opening _ | closing => none

end MenuPiece

namespace MenuItem
open MenuPiece

mutual

def pieces : MenuItem → List MenuPiece
  | .link path id => [.entry ⟨none, path, id⟩]
  | .group level path id items =>
    .entry ⟨some level, path, id⟩ :: .opening level :: piecesAll items ++ [.closing]

def piecesAll : List MenuItem → List MenuPiece
  | [] => []
  | item :: rest => item.pieces ++ piecesAll rest

end

mutual

theorem markup_eq_pieces (item : MenuItem) : item.markup = item.pieces.flatMap MenuPiece.text := by
  cases item with
  | link path id =>
    rw [markup, pieces, Markup.element_eq]
    simp only [List.flatten_cons, List.flatten_nil, List.flatMap_cons, List.flatMap_nil,
      List.append_nil, List.append_assoc]
    rfl
  | group level path id items =>
    have hentry : MenuEntry.text ⟨some level, path, id⟩ = List.flatten ["<input id='",
        level ++ '-' :: path, "' type='checkbox'></input>", "<label for='", level ++ '-' :: path, "'>",
        id, "</label>"] := rfl
    rw [markup, pieces, markupAll_eq_pieces items, Markup.element_eq, Markup.element_eq,
      Markup.element_eq]
    simp only [List.cons_append, List.flatMap_cons, List.flatMap_append, text_entry, text_opening,
      text_closing, hentry, List.flatten_cons, List.flatten_nil, List.flatMap_nil, List.append_nil,
      List.append_assoc]
    rfl

theorem markupAll_eq_pieces (items : List MenuItem) :
    markupAll items = (piecesAll items).flatMap MenuPiece.text := by
  cases items with
  | nil => rfl
  | cons item rest =>
    rw [markupAll, piecesAll, List.flatMap_append, markup_eq_pieces item, markupAll_eq_pieces rest]

end

mutual

theorem entries_eq_pieces (item : MenuItem) : item.entries = item.pieces.filterMap entry? := by
  cases item with
  | link path id => rfl
  | group level path id items =>
    have hclosing : [closing].filterMap entry? = [] := rfl
    have hentry : ∀ rest, (.entry ⟨some level, path, id⟩ :: .opening level :: rest).filterMap entry? =
        ⟨some level, path, id⟩ :: rest.filterMap entry? := fun _ => rfl
    rw [entries, pieces, entriesAll_eq_pieces items, List.cons_append, List.cons_append, hentry,
      List.filterMap_append, hclosing, List.append_nil]

theorem entriesAll_eq_pieces (items : List MenuItem) :
    entriesAll items = (piecesAll items).filterMap entry? := by
  cases items with
  | nil => rfl
  | cons item rest =>
    rw [entriesAll, piecesAll, List.filterMap_append, entries_eq_pieces item, entriesAll_eq_pieces rest]

end

mutual

theorem exists_entry_of_opening (item : MenuItem) {level : Text} (h : opening level ∈ item.pieces) :
    ∃ e ∈ item.entries, e.level? = some level := by
  cases item with
  | link path id => simp [pieces] at h
  | group outer path id items =>
    have hcases : opening level = opening outer ∨ opening level ∈ piecesAll items := by
      simpa [pieces] using h
    rcases hcases with houter | hbelow
    · cases houter
      exact ⟨⟨some level, path, id⟩, by rw [entries]; exact List.mem_cons_self, rfl⟩
    · obtain ⟨e, he, hlevel⟩ := exists_entryAll_of_opening items hbelow
      exact ⟨e, by rw [entries]; exact List.mem_cons_of_mem _ he, hlevel⟩

theorem exists_entryAll_of_opening (items : List MenuItem) {level : Text}
    (h : opening level ∈ piecesAll items) : ∃ e ∈ entriesAll items, e.level? = some level := by
  cases items with
  | nil => simp [piecesAll] at h
  | cons item rest =>
    rw [piecesAll, List.mem_append] at h
    rw [entriesAll]
    rcases h with hitem | hrest
    · obtain ⟨e, he, hlevel⟩ := exists_entry_of_opening item hitem
      exact ⟨e, List.mem_append_left _ he, hlevel⟩
    · obtain ⟨e, he, hlevel⟩ := exists_entryAll_of_opening rest hrest
      exact ⟨e, List.mem_append_right _ he, hlevel⟩

end

/-- The pieces of a written menu: one for each entry, in order, and between them tags that fold the groups
at the levels of their heads. -/
structure WrittenAs (items : List MenuItem) (written : List MenuPiece) : Prop where
  markup : markupAll items = written.flatMap MenuPiece.text
  entries : written.filterMap entry? = entriesAll items
  levels : ∀ level, opening level ∈ written → ∃ e ∈ entriesAll items, e.level? = some level

theorem writtenAs_pieces (items : List MenuItem) : WrittenAs items (piecesAll items) :=
  ⟨markupAll_eq_pieces items, (entriesAll_eq_pieces items).symm, fun _ => exists_entryAll_of_opening items⟩

end MenuItem

end DocComment
