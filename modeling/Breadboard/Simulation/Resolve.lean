import Breadboard.Schedule.Graph
import Breadboard.Simulation.State

/-!
# Resolving a net

An ordinary net shows what its only source shows, and 0 if it has none or
several. A tri-state net looks for the sources that drive: a single one
decides its value; when there is none or several, the net keeps its value
and its readers are told that it is not resolved.
-/

namespace Breadboard

namespace Net

/-- Whether a source of a net drives. -/
def isDriving (netlist : Netlist) (state : State) (ref : PortRef) : Bool :=
  (state.pin ref).drives ((netlist.port? ref).getD default).type

/-- The sources that drive. -/
def driving (netlist : Netlist) (state : State) (net : Net) : List PortRef :=
  net.sources.filter (isDriving netlist state)

end Net

namespace State

/-- Give a value to a net and to every pin that reads it. -/
def fanOut (state : State) (index : Nat) (net : Net) (value : Word) (count : Nat) : State :=
  let state := state.setNet index ⟨value, count⟩
  net.targets.foldl (·.updatePin fun pin => { pin with value, resolved := true }) state

/-- Leave a net as it is, and tell every pin that reads it that it is not
resolved. -/
def leaveOpen (state : State) (index : Nat) (net : Net) (count : Nat) : State :=
  let state := state.setNet index ⟨(state.net index).value, count⟩
  net.targets.foldl (·.updatePin fun pin => { pin with resolved := false }) state

/-- Settle one net from its sources. -/
def resolve (netlist : Netlist) (index : Nat) (state : State) : State :=
  let net := netlist.nets.getD index default
  let shown (source : PortRef) : Word := trim net.width (state.pin source).value
  if net.tristate then
    match net.driving netlist state with
    | [source] => state.fanOut index net (shown source) 1
    | driving => state.leaveOpen index net driving.length
  else
    match net.sources with
    | [source] => state.fanOut index net (shown source) 1
    | sources => state.fanOut index net 0 sources.length

/-- Run one phase of a part. -/
def runPhase (netlist : Netlist) (part phase : Nat) (state : State) : State :=
  let placed := netlist.parts.getD part default
  let (after, status) := placed.device.run placed.ports phase (state.part part) state.status
  { state.setPart part after with status }

/-- Do one unit of work. -/
def perform (netlist : Netlist) (state : State) : Task → State
  | .phase part phase => state.runPhase netlist part phase
  | .net net => state.resolve netlist net

end State

end Breadboard
