import CodeAtlas.Ast
import CodeAtlas.Dict
import CodeAtlas.Pattern.Parse

/-!
# Template parameters

The parameters of a template, found among the children of its node and by patterns in its text.
-/

namespace CodeAtlas.Extraction

def typeHeadPattern : Pattern := .ofString "template\\s*<\\s*(typename|class)([^>]*?)>\\s*(\\w+)"

def templateHeadPattern : Pattern :=
  .ofString "template\\s*<\\s*template\\s*<([^>]*?)>\\s*class\\s*(\\w+)"

/-- As `templateHeadPattern`, with only the name remembered. -/
def containerPattern : Pattern :=
  .ofString "template\\s*<\\s*template\\s*<[^>]*>\\s*class\\s*(\\w+)"

def nestedTemplatePattern : Pattern :=
  .ofString "template\\s*<[^>]*template\\s*<[^>]*>\\s*(class|typename)\\s*(\\w+)"

def flatTemplatePattern : Pattern := .ofString "template\\s*<[^>]*>\\s*(class|typename)\\s*(\\w+)"

def usualNamePattern : Pattern := .ofString "(Container|Allocator|Trait|SmartPtr)(?:\\s*<|\\s+\\w+)"

/-- The name, if there is one, added to the list unless it is there already. -/
def addNonempty (l : List String) (name : String) : List String :=
  if name.isEmpty then l else addNew l name

def declaredParams (children : List Ast) : List String :=
  children.filterMap fun c =>
    if c.kind == .typeParameter || c.kind == .templateParameter then some c.info.name else none

def templateParams (a : Ast) : List String :=
  let text := a.info.text
  let params := declaredParams a.children
  let params := (typeHeadPattern.findAll text).foldl (fun l m => addNonempty l (m.group 3)) params
  let params :=
    (templateHeadPattern.findAll text).foldl (fun l m => addNonempty l (m.group 2)) params
  if Text.occursIn "template" text && Text.occursIn "<" text && Text.occursIn ">" text then
    (containerPattern.findAll text).foldl (fun l m => addNonempty l (m.group 1)) params
  else params

/-- How a template parameter that is a template is shown: its tokens, if they are more than two. -/
def shownParam (c : Ast) : String :=
  if c.info.tokens.length > 2 then c.info.text else c.info.name

def declaredTemplateTemplates (children : List Ast) : List String :=
  children.filterMap fun c => if c.kind == .templateParameter then some (shownParam c) else none

/-- The template parameters that are templates themselves: the declared ones or, if there are
none, those that patterns in the text suggest. -/
def templateTemplateParams (a : Ast) : List String :=
  let text := a.info.text
  let declared := declaredTemplateTemplates a.children
  if !declared.isEmpty then declared
  else
    let byText := [nestedTemplatePattern, flatTemplatePattern].foldl (fun l p =>
      (p.findAll text).foldl (fun l m => addNew l (m.group 2)) l) []
    if !byText.isEmpty then byText
    else (usualNamePattern.findAll text).foldl (fun l m => addNew l (m.group 1)) []

end CodeAtlas.Extraction
