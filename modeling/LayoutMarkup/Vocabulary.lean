import LayoutMarkup.NameSet

/-!
# Vocabulary — the names a formatter knows

Which elements are standard HTML, which of them may stay unclosed, in which of them white space
matters, and which attributes hold arithmetic.
-/

namespace LayoutMarkup

/-- The names that reading and printing a document depend on. -/
structure Vocabulary where
  /-- The elements of HTML.  A document whose root is none of them is a layout. -/
  html : NameSet := .empty
  /-- The elements whose closing tag may be left out.  One that stays open takes in the siblings
  after it, up to the closing tag of an element around it. -/
  void : NameSet := .empty
  /-- The elements whose inner white space matters: their text is kept and only re-indented. -/
  rawText : NameSet := .empty
  /-- The attributes whose values are arithmetic expressions. -/
  expression : NameSet := .empty
  deriving DecidableEq, Repr

namespace Vocabulary

/-- Elements of HTML whose closing tag may be left out. -/
def voidNames : List String :=
  ["area", "base", "br", "col", "embed", "hr", "img", "input", "keygen", "link", "meta", "param",
   "source", "track", "wbr"]

/-- Elements of HTML that hold running text. -/
def rawTextNames : List String :=
  ["a", "abbr", "b", "bdi", "bdo", "big", "blockquote", "br", "caption", "cite", "code", "dd",
   "del", "dfn", "dt", "em", "figcaption", "font", "h1", "h2", "h3", "h4", "h5", "h6", "i", "ins",
   "kbd", "label", "legend", "li", "mark", "nobr", "ol", "p", "pre", "q", "s", "samp", "small",
   "span", "strike", "strong", "sub", "summary", "sup", "td", "th", "time", "tt", "u", "ul", "var",
   "wbr"]

/-- The other elements of HTML. -/
def blockNames : List String :=
  ["address", "applet", "article", "aside", "audio", "body", "button", "canvas", "center",
   "colgroup", "datalist", "details", "dialog", "dir", "div", "dl", "fieldset", "figure", "footer",
   "form", "head", "header", "hgroup", "html", "iframe", "listing", "main", "map", "marquee",
   "math", "menu", "meter", "nav", "noembed", "noscript", "object", "optgroup", "option", "output",
   "plaintext", "progress", "rb", "rp", "rt", "rtc", "ruby", "script", "section", "select", "style",
   "svg", "table", "tbody", "template", "textarea", "tfoot", "thead", "title", "tr", "video", "xmp"]

/-- The geometric and numeric properties of a layout. -/
def expressionNames : List String :=
  ["top", "left", "bottom", "right", "width", "height", "center.x", "center.y", "firstBaseline",
   "lastBaseline", "contentSize.width", "contentSize.height", "contentInset.top",
   "contentInset.left", "contentInset.bottom", "contentInset.right", "contentOffset.x",
   "contentOffset.y", "layoutMargins.top", "layoutMargins.left", "layoutMargins.bottom",
   "layoutMargins.right", "frame.origin.x", "frame.origin.y", "frame.size.width",
   "frame.size.height", "bounds.width", "bounds.height", "alpha", "cornerRadius", "borderWidth",
   "zPosition", "layer.cornerRadius", "layer.borderWidth", "layer.shadowRadius",
   "layer.shadowOpacity", "layer.shadowOffset.width", "layer.shadowOffset.height",
   "layer.zPosition", "minimumScaleFactor", "numberOfLines", "spacing"]

/-- The set of the names in a list. -/
def setOf (l : List String) : NameSet := .ofList (l.map Bytes.utf8)

/-- The standard vocabulary. -/
def standard : Vocabulary where
  html := setOf (blockNames ++ voidNames ++ rawTextNames)
  void := setOf voidNames
  rawText := setOf rawTextNames
  expression := setOf expressionNames

instance : Inhabited Vocabulary := ⟨standard⟩

/-- All names of both vocabularies. -/
def union (v w : Vocabulary) : Vocabulary where
  html := v.html.union w.html
  void := v.void.union w.void
  rawText := v.rawText.union w.rawText
  expression := v.expression.union w.expression

end Vocabulary

end LayoutMarkup
