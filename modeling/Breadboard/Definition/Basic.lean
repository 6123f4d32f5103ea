import Breadboard.Definition.Script

/-!
# Definitions

A definition is what a schematic refers to when it places a component: built
in, scripted, or known by its ports only. The last kind has no behaviour:
what it builds is inert and not valid, so that the schematic it is
registered with provides the outputs.
-/

namespace Breadboard

/-- Where the behaviour of a definition comes from. -/
inductive Behaviour where
  | builtin (builtin : Builtin)
  | outline (ports : List PortDecl)
  | scripted (script : Script)

/-- A component definition. -/
structure Definition where
  id : String
  behaviour : Behaviour

namespace Definition

def ofBuiltin (builtin : Builtin) : Definition :=
  ⟨builtin.id, .builtin builtin⟩

/-- The declared ports for the arguments of a component. -/
def ports (definition : Definition) (args : Json) : List PortDecl :=
  match definition.behaviour with
  | .builtin builtin => builtin.ports args
  | .outline ports => ports
  | .scripted script => script.ports

/-- What the definition builds for the arguments of a component. -/
def assemble (definition : Definition) (args : Json) : Except BuildError Assembly :=
  match definition.behaviour with
  | .builtin builtin => .ok (builtin.assemble args)
  | .outline ports => do
    let builder ← (Builder.start definition.id args ports).addDefault
    return {
      ports := builder.ports
      phases := builder.phases
      device := .inert
      valid := builder.valid }
  | .scripted script => script.assemble definition.id args

end Definition

end Breadboard
