import CodeAtlas.CallGraph

/-!
# References between files

Relations that show only when the functions of all files are known: calls that instantiate a
template, metafunctions that use others, bodies that mention a template, and the specializations
of each template.
-/

namespace CodeAtlas

open Text

inductive CrossReferenceMode where
  | basic
  | enhanced
  | full
  | unknown
deriving Repr, DecidableEq

def CrossReferenceMode.ofString : String → CrossReferenceMode
  | "basic" => .basic
  | "enhanced" => .enhanced
  | "full" => .full
  | _ => .unknown

namespace CrossReferences

/-- The arguments in a name of the form `base<a, b>`. -/
def argsOfName? (base name : String) : Option (List String) :=
  let part := drop name (size base)
  if startsWith part "<" && endsWith part ">" then
    some ((split (dropEnd (drop part 1) 1) ",").map strip)
  else none

def noteInstantiation (templates : List String) (fs : Functions) (called : String) : Functions :=
  if occursIn "<" called && occursIn ">" called then
    let base := (split called "<").headD ""
    if templates.contains base then
      let fs := Dict.adjust fs base (·.addSpecialization called)
      Dict.adjust fs called fun f =>
        let f := { f with isTemplate := true, primaryTemplate := base }
        match argsOfName? base called with
        | some args => { f with specializationArgs := args }
        | none => f
    else fs
  else fs

def instantiations (templates : List String) (fs : Functions) : Functions :=
  fs.keys.foldl (fun fs key =>
    match fs.get? key with
    | some f => f.calls.foldl (noteInstantiation templates) fs
    | none => fs) fs

def dependentBase (name : String) : String :=
  if occursIn "::" name then (split name "::").headD "" else name

def noteDependent (metafunctions : List String) (key : String) (fs : Functions) (name : String) :
    Functions :=
  let base := dependentBase name
  if metafunctions.contains base then
    Dict.adjust (Dict.adjust fs key (·.addCall base)) base (·.addCaller key)
  else fs

def markComposed (metafunctions : List String) (f : Function) : Function :=
  if f.calls.any metafunctions.contains then
    { f with
      isMetafunction := true
      metafunctionKind := if f.metafunctionKind.isEmpty then "composed_metafunction"
        else f.metafunctionKind }
  else f

def metafunctionUses (metafunctions : List String) (fs : Functions) : Functions :=
  metafunctions.foldl (fun fs key =>
    match fs.get? key with
    | some f =>
      Dict.adjust (f.dependentNames.foldl (noteDependent metafunctions key) fs) key
        (markComposed metafunctions)
    | none => fs) fs

def bodyMentions (templates : List String) (fs : Functions) : Functions :=
  fs.keys.foldl (fun fs key =>
    match fs.get? key with
    | some f =>
      if f.body.isEmpty then fs
      else
        templates.foldl (fun fs t =>
          if occursIn t f.body then
            Dict.adjust (Dict.adjust fs key (·.addCall t)) t (·.addCaller key)
          else fs) fs
    | none => fs) fs

def specializationGroups (fs : Functions) : Dict (List String) :=
  fs.foldl (fun d (key, f) =>
    if f.isTemplate && !f.primaryTemplate.isEmpty then Dict.push d f.primaryTemplate key else d) []

def specializations (fs : Functions) : Functions :=
  (specializationGroups fs).foldl (fun fs (base, names) =>
    if fs.has base then
      names.foldl (fun fs name =>
        Dict.adjust (Dict.adjust fs base (·.addSpecialization name)) name fun f =>
          { f with primaryTemplate := base }) fs
    else fs) fs

end CrossReferences

open CrossReferences in
def crossReferences (mode : CrossReferenceMode) (fs : Functions) : Functions :=
  let templates := Dict.keys (fs.filter (·.2.isTemplate))
  let metafunctions := Dict.keys (fs.filter (·.2.isMetafunction))
  match mode with
  | .basic | .unknown => fs
  | .enhanced => metafunctionUses metafunctions (instantiations templates fs)
  | .full =>
    specializations
      (bodyMentions templates (metafunctionUses metafunctions (instantiations templates fs)))

end CodeAtlas
