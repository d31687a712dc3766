import VueToSan.Text.Ascii

/-!
# Tags and attributes of HTML
-/

namespace VueToSan.Markup

open VueToSan.Text

def voidTags : List String := [
  "area", "base", "basefont", "br", "col", "command", "embed", "frame", "hr", "img", "input",
  "isindex", "keygen", "link", "meta", "param", "source", "track", "wbr"]

def rawTextTags : List String := ["script", "style", "textarea"]

def booleanAttrs : List String := [
  "allowfullscreen", "async", "autofocus", "autoplay", "checked", "compact", "controls",
  "declare", "default", "defaultchecked", "defaultmuted", "defaultselected", "defer",
  "disabled", "enabled", "formnovalidate", "hidden", "indeterminate", "inert", "ismap",
  "itemscope", "loop", "multiple", "muted", "nohref", "noresize", "noshade", "novalidate",
  "nowrap", "open", "pauseonexit", "readonly", "required", "reversed", "scoped", "seamless",
  "selected", "sortable", "translate", "truespeed", "typemustmatch", "visible"]

def htmlTags : List String := [
  "html", "body", "base", "head", "link", "meta", "style", "title", "address", "article",
  "aside", "footer", "header", "h1", "h2", "h3", "h4", "h5", "h6", "hgroup", "nav", "section",
  "div", "dd", "dl", "dt", "figcaption", "figure", "hr", "img", "li", "main", "ol", "p", "pre",
  "ul", "a", "b", "abbr", "bdi", "bdo", "br", "cite", "code", "data", "dfn", "em", "i", "kbd",
  "mark", "q", "rp", "rt", "rtc", "ruby", "s", "samp", "small", "span", "strong", "sub", "sup",
  "time", "u", "var", "wbr", "area", "audio", "map", "track", "video", "embed", "object",
  "param", "source", "canvas", "script", "noscript", "del", "ins", "caption", "col",
  "colgroup", "table", "thead", "tbody", "td", "th", "tr", "button", "datalist", "fieldset",
  "form", "input", "label", "legend", "meter", "optgroup", "option", "output", "progress",
  "select", "textarea", "details", "dialog", "menu", "menuitem", "summary", "content",
  "element", "shadow", "template"]

def isVoid (tag : String) : Bool := voidTags.contains (lower tag)

/-- Whether a tag is written without an end tag when it has no children. -/
def isSingle (tag : String) : Bool := voidTags.contains tag

def isRawText (tag : String) : Bool := rawTextTags.contains (lower tag)

def isHtmlTag (tag : String) : Bool := htmlTags.contains tag

def isBooleanAttr (name : String) : Bool := booleanAttrs.contains name

def isValueless (name : String) : Bool := name == "s-else"

def isPresence (tag name : String) : Bool := isHtmlTag tag && isBooleanAttr name

end VueToSan.Markup
