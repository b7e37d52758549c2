import RouteTemplate.Match.Search

namespace RouteTemplate

/-- The template that matched, its place in the set, and the values captured. -/
structure Selection where
  index : Nat
  template : Template
  bindings : Bindings
deriving DecidableEq

structure TemplateSet where
  templates : List Template
deriving DecidableEq, Inhabited

namespace TemplateSet

def empty : TemplateSet := ⟨[]⟩

instance : EmptyCollection TemplateSet := ⟨empty⟩

def ofList (templates : List Template) : TemplateSet := ⟨templates⟩

def toList (s : TemplateSet) : List Template := s.templates

/-- The set that the texts denote, or the fault of the first text that has one. -/
def parse (texts : List String) : Except ParseError TemplateSet :=
  (texts.mapM Template.parse).map ofList

def size (s : TemplateSet) : Nat := s.templates.length

def isEmpty (s : TemplateSet) : Bool := s.templates.isEmpty

def push (s : TemplateSet) (t : Template) : TemplateSet := ⟨s.templates ++ [t]⟩

def append (s : TemplateSet) (ts : List Template) : TemplateSet := ⟨s.templates ++ ts⟩

/-- The set without any template equal to the given one, and whether there was one. -/
def eraseAll (s : TemplateSet) (t : Template) : Bool × TemplateSet :=
  let kept := ofList (s.templates.filter (· ≠ t))
  (kept.size != s.size, kept)

def findFrom? (path : String) (index : Nat) : List Template → Option Selection
  | [] => none
  | t :: ts =>
    match t.match? path with
    | some bindings => some ⟨index, t, bindings⟩
    | none => findFrom? path (index + 1) ts

def find? (s : TemplateSet) (path : String) : Option Selection := findFrom? path 0 s.templates

end TemplateSet

inductive SetEdit where
  | parse (texts : List String)
  | collect (templates : List Template)
  | extend (templates : List Template)
  | push (template : Template)
  | erase (template : Template)
deriving DecidableEq

def SetEdit.keeps (t : Template) : SetEdit → Bool
  | .parse _ => false
  | .collect _ => false
  | .extend _ => true
  | .push _ => true
  | .erase u => u ≠ t

namespace TemplateSet

def edit (s : TemplateSet) : SetEdit → TemplateSet
  | .parse texts => (parse texts).toOption.getD s
  | .collect templates => ofList templates
  | .extend templates => s.append templates
  | .push t => s.push t
  | .erase t => (s.eraseAll t).2

def edited (s : TemplateSet) (edits : List SetEdit) : TemplateSet := edits.foldl edit s

/-- The first of the templates to match a path: it does, and none with a smaller index does. -/
structure IsFirst (templates : List Template) (path : String) (found : Selection) : Prop where
  getElem?_index : templates[found.index]? = some found.template
  match?_template : found.template.match? path = some found.bindings
  match?_before : ∀ i t, i < found.index → templates[i]? = some t → t.match? path = none

end TemplateSet

end RouteTemplate
