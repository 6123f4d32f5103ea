import Breadboard.Json
import Breadboard.Split

/-!
# Schematics

A schematic is a circuit as it was drawn: components, each placed under an
id, and wires between their ports. Nothing is checked here; ids may repeat
and wires may end nowhere.
-/

namespace Breadboard

/-- One end of a wire: a port of a component of the same schematic. -/
structure Endpoint where
  component : String
  port : String
  deriving DecidableEq, Repr

namespace Endpoint

/-- Read `component.port`. The component's name ends at the first point; without
a point the whole text is the component and the port's name is empty. -/
def ofText (text : String) : Endpoint :=
  match splitFirst '.' text.toList with
  | some (component, port) => ⟨String.ofList component, String.ofList port⟩
  | none => ⟨text, ""⟩

def display (endpoint : Endpoint) : String :=
  endpoint.component ++ "." ++ endpoint.port

end Endpoint

/-- A connected group of wire segments and the ports it touches. -/
structure Wire where
  id : String
  endpoints : List Endpoint
  deriving DecidableEq, Repr

/-- A placed component: which definition it is, and with which arguments. -/
structure Component where
  id : String
  definition : String
  args : Json := .null
  deriving Inhabited

/-- A circuit as it was drawn. -/
structure Schematic where
  components : List Component := []
  wires : List Wire := []
  deriving Inhabited

namespace Schematic

/-- The first component with this id. -/
def find? (schematic : Schematic) (id : String) : Option Component :=
  schematic.components.find? (·.id = id)

end Schematic

/-- A wire whose endpoints are written as `component.port`. -/
def Wire.ofTexts (id : String) (endpoints : List String) : Wire :=
  ⟨id, endpoints.map Endpoint.ofText⟩

end Breadboard
