/-
# Markup.Tree — markup as a tree, and its written form

`Tree.write` writes a tree as HTML: text and attribute values escaped, the text
inside a verbatim element as it is, a void element without content or closing
tag. Comments may be left out.
-/
import Inlay.Markup.Attribute
import Inlay.Markup.Vocabulary

namespace Inlay.Markup

set_option autoImplicit false

inductive Tree where
  | element (tag : String) (attributes : List Attribute) (children : List Tree)
  | text (content : String)
  | comment (body : String)
  deriving BEq

namespace Tree

/-- The text of a list of attributes, each behind a space. -/
def writeAttributes (attributes : List Attribute) : String :=
  String.join (attributes.map fun a => " " ++ a.name ++ "=\"" ++ escapeAttribute a.value ++ "\"")

mutual

/-- The HTML of a tree. `parent` is the tag it stands in, when it stands in an
element; `comments` tells whether comments are written. -/
def write (comments : Bool) (parent : Option String) : Tree → String
  | .text content =>
    if parent.any isVerbatim then content else escapeText content
  | .comment body => if comments then "<!--" ++ body ++ "-->" else ""
  | .element tag attributes children =>
    let opening := "<" ++ tag ++ writeAttributes attributes ++ ">"
    if isVoid tag then opening
    else opening ++ writeAll comments (some tag) children ++ "</" ++ tag ++ ">"

/-- The HTML of trees in order. -/
def writeAll (comments : Bool) (parent : Option String) : List Tree → String
  | [] => ""
  | tree :: rest => write comments parent tree ++ writeAll comments parent rest

end

end Tree

end Inlay.Markup
