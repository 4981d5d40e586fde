import DocComment.Text

/-!
# The tag vocabulary

A documentation comment is written with a closed set of tags.  Each tag has a mark that introduces
it in a line and a category that says what follows the mark.
-/

namespace DocComment

inductive Category where
  | delimiter
  | flag
  | label
  | description
  | value
  | typed
  | named
  | text
  deriving DecidableEq, Repr

inductive Tag where
  | start
  | stop
  | ignoreFlag
  | privateFlag
  | constructorFlag
  | moduleName
  | namespaceName
  | className
  | methodName
  | memberOf
  | methodOf
  | requires
  | overrides
  | typeName
  | todo
  | varName
  | returns
  | param
  | property
  | exampleText
  deriving DecidableEq, Repr

namespace Tag

def all : List Tag :=
  [start, stop, ignoreFlag, privateFlag, constructorFlag, moduleName, namespaceName, className,
    methodName, memberOf, methodOf, requires, overrides, typeName, todo, varName, returns, param,
    property, exampleText]

/-- Tags are ordered as they are listed in `all`. -/
instance : LT Tag := ⟨fun a b => a.ctorIdx < b.ctorIdx⟩

instance : DecidableLT Tag := fun a b => Nat.decLt a.ctorIdx b.ctorIdx

def category : Tag → Category
  | start | stop => .delimiter
  | ignoreFlag | privateFlag | constructorFlag => .flag
  | moduleName | namespaceName | className | methodName | memberOf | methodOf
  | requires | overrides | typeName => .label
  | todo => .description
  | varName => .value
  | returns => .typed
  | param | property => .named
  | exampleText => .text

/-- The literal that introduces the tag in a line. -/
def mark : Tag → Text
  | start => "/**"
  | stop => "*/"
  | ignoreFlag => "@ignore"
  | privateFlag => "@private"
  | constructorFlag => "@constructor"
  | moduleName => "@module"
  | namespaceName => "@namespace"
  | className => "@class"
  | methodName => "@method"
  | memberOf => "@memberOf"
  | methodOf => "@methodOf"
  | requires => "@requires"
  | overrides => "@override"
  | typeName => "@type"
  | todo => "@todo"
  | varName => "@var"
  | returns => "@returns"
  | param => "@param"
  | property => "@property"
  | exampleText => "@example"

/-- The name used by field access and in exported data: the mark without its first character,
and a word of its own for the two delimiters. -/
def name : Tag → Text
  | start => "START"
  | stop => "END"
  | tag => tag.mark.drop 1

def ofName? (name : Text) : Option Tag := all.find? (·.name == name)

/-- Whether a line is introduced by the tag. A delimiter only has to begin the line; any other
mark has to be followed by white space or the end of the line. -/
def introduces (line : Text) (tag : Tag) : Bool :=
  match tag.mark.isPrefixOf? line with
  | none => false
  | some rest => tag.category == .delimiter || rest.head?.all Text.isBlank

def introducing? (line : Text) : Option Tag := all.find? (introduces line)

end Tag

end DocComment
