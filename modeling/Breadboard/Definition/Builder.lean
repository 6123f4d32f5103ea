import Breadboard.Device.Basic
import Breadboard.Diagnostic
import Breadboard.Json

/-!
# Building a component

A builder collects the ports and phases of one component. It starts from the
declared ports; further ports can be added, which only the flattener sees.
Ordinary phases come before latch phases: `Builder.addPhase` refuses an
ordinary phase once there is a latch phase, so every builder reached from
`Builder.start` satisfies `Builder.Ordered`.
-/

namespace Breadboard

/-- A component under construction. -/
structure Builder where
  definition : String
  args : Json
  ports : List PortDecl
  phases : List Phase := []
  valid : Bool := true

namespace Builder

def start (definition : String) (args : Json) (ports : List PortDecl) : Builder where
  definition
  args
  ports

/-- The position of the first port with this id. -/
def port? (builder : Builder) (id : String) : Except BuildError Nat :=
  match builder.ports.findIdx? (·.id = id) with
  | some index => .ok index
  | none => .error (.noSuchPort builder.definition id (builder.ports.map (·.id)))

/-- The positions of the ports whose type satisfies `p`. -/
def portsWhere (builder : Builder) (p : PortType → Bool) : List Nat :=
  (List.range builder.ports.length).filter fun index => builder.ports[index]?.any (p ·.type)

/-- Add a port that the definition does not declare. -/
def addPort (builder : Builder) (port : PortDecl) : Builder :=
  { builder with ports := builder.ports ++ [port] }

/-- Whether there is a latch phase already. -/
def latched (builder : Builder) : Bool :=
  builder.phases.any (·.latch)

/-- Add a phase after the ones there are. -/
def addPhase (builder : Builder) (phase : Phase) : Except BuildError Builder :=
  if builder.latched && !phase.latch then .error (.phaseAfterLatch builder.definition)
  else .ok { builder with phases := builder.phases ++ [phase] }

/-- Add the one phase of a component without behaviour, which reads every input
and writes every output, and mark the component as not valid. -/
def addDefault (builder : Builder) : Except BuildError Builder :=
  { builder with valid := false }.addPhase
    { reads := builder.portsWhere (·.input), writes := builder.portsWhere (·.output) }

/-- No ordinary phase stands behind a latch phase. -/
def Ordered (builder : Builder) : Prop :=
  builder.phases.Pairwise fun first second => first.latch → second.latch

theorem ordered_start (definition : String) (args : Json) (ports : List PortDecl) :
    (start definition args ports).Ordered :=
  List.Pairwise.nil

theorem Ordered.addPhase {builder next : Builder} {phase : Phase} (h : builder.Ordered)
    (hnext : builder.addPhase phase = .ok next) : next.Ordered := by
  unfold Builder.addPhase at hnext
  split at hnext
  · cases hnext
  · next hlatch =>
    cases hnext
    refine List.pairwise_append.mpr ⟨h, List.pairwise_singleton .., ?_⟩
    intro first hfirst second hsecond hlatched
    rw [List.mem_singleton.mp hsecond]
    have : builder.latched = true := List.any_eq_true.mpr ⟨first, hfirst, hlatched⟩
    simpa [this] using hlatch

end Builder

end Breadboard
