/-
# Markup.Vocabulary — element names with a meaning of their own

Tag names are compared as they are; the reader has put them in lower case.
-/

namespace Inlay.Markup

set_option autoImplicit false

/-- Elements without content or closing tag. -/
def voidTags : List String :=
  ["area", "base", "br", "col", "embed", "hr", "img", "input", "link", "meta", "source", "track",
   "wbr"]

/-- Elements whose content is one text up to their closing tag. -/
def rawTags : List String := ["script", "style", "textarea", "title"]

/-- Raw elements whose text holds no character references. -/
def verbatimTags : List String := ["script", "style"]

/-- Elements whose live state may differ from their attributes. -/
def interactiveTags : List String := ["input", "textarea", "select", "option", "button"]

def isVoid (tag : String) : Bool := voidTags.contains tag

def isRaw (tag : String) : Bool := rawTags.contains tag

def isVerbatim (tag : String) : Bool := verbatimTags.contains tag

def isInteractive (tag : String) : Bool := interactiveTags.contains tag

end Inlay.Markup
