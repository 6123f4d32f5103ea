import Breadboard.Proofs.Built
import Breadboard.Proofs.Wired
import Mathlib.Logic.Relation

/-!
# Circuits with and without seams

Where a circuit has a boundary port inside an expanded component, two nets meet that
are one net when the hierarchy is removed: the boundary port passes the value of one on
to the other (`Passes`). `Seams` says how the netlist of a circuit with hierarchy and
that of the circuit without it hang together: which parts are the same, which nets were
merged, and that nets were merged just if seams lead from one to the other.
-/

namespace Breadboard.Netlist

/-- A net lists a port as a driver. -/
def HasSource (netlist : Netlist) (index : Nat) (ref : PortRef) : Prop :=
  ∃ net, netlist.nets[index]? = some net ∧ ref ∈ net.sources

/-- A net lists a port as a reader. -/
def HasTarget (netlist : Netlist) (index : Nat) (ref : PortRef) : Prop :=
  ∃ net, netlist.nets[index]? = some net ∧ ref ∈ net.targets

theorem HasSource.lists {netlist : Netlist} {index : Nat} {ref : PortRef}
    (h : netlist.HasSource index ref) : netlist.Lists index ref :=
  h.imp fun _ h => ⟨h.1, Or.inl h.2⟩

theorem HasTarget.lists {netlist : Netlist} {index : Nat} {ref : PortRef}
    (h : netlist.HasTarget index ref) : netlist.Lists index ref :=
  h.imp fun _ h => ⟨h.1, Or.inr h.2⟩

/-- The pins from and to which a boundary port passes values. -/
def passSides (inbound : Bool) : Nat × Nat :=
  if inbound then (1, 0) else (0, 1)

/-- The part is a boundary port which reads the first net and drives the second. -/
def Passes (netlist : Netlist) (part first second : Nat) : Prop :=
  ∃ placed inbound tristate value, netlist.parts[part]? = some placed ∧
    placed.device = .boundary inbound tristate value ∧
    netlist.HasTarget first ⟨part, (passSides inbound).1⟩ ∧
    netlist.HasSource second ⟨part, (passSides inbound).2⟩

/-- A seam leads from one net to the other. -/
def Meet (netlist : Netlist) (seam : Nat → Prop) (first second : Nat) : Prop :=
  ∃ part, seam part ∧ netlist.Passes part first second

/-- The second netlist is the first one with its seams closed: `same` relates the parts
that are left, and `merged` a net to what became of it. -/
structure Seams (nested flat : Netlist) (seam : Nat → Prop) (same merged : Nat → Nat → Prop) :
    Prop where
  part : ∀ {p q : Nat}, same p q → ∃ assembly placed placed', nested.parts[p]? = some placed ∧
    flat.parts[q]? = some placed' ∧ placed.MadeOf assembly ∧ placed'.MadeOf assembly
  onto : ∀ q < flat.parts.length, ∃ p, same p q
  rest : ∀ {p : Nat} {placed : Part}, nested.parts[p]? = some placed →
    (∃ q, same p q) ∨ seam p ∨ placed.device = .inert
  boundary : ∀ {p : Nat}, seam p → ∃ placed args, nested.parts[p]? = some placed ∧
    placed.MadeOf (Builtin.boundary.assemble args) ∧
    ((Boundary.outerDecl args "").type.input = true → ∃ n, nested.HasTarget n ⟨p, 1⟩)
  total : ∀ n < nested.nets.length, ∃ m, merged n m
  driver : ∀ {n : Nat} {ref : PortRef}, nested.HasSource n ref →
    (∃ q, same ref.part q) ∨ seam ref.part
  source : ∀ {p q n m k : Nat}, same p q → merged n m → nested.HasSource n ⟨p, k⟩ →
    flat.HasSource m ⟨q, k⟩
  target : ∀ {p q n m k : Nat}, same p q → merged n m → nested.HasTarget n ⟨p, k⟩ →
    flat.HasTarget m ⟨q, k⟩
  origin : ∀ {p q m k : Nat}, same p q → flat.HasSource m ⟨q, k⟩ → ∃ n,
    nested.HasSource n ⟨p, k⟩ ∧
      ∀ n', merged n' m → Relation.EqvGen (nested.Meet seam) n' n
  reader : ∀ {p q m k : Nat}, same p q → flat.HasTarget m ⟨q, k⟩ → ∃ n,
    merged n m ∧ nested.HasTarget n ⟨p, k⟩
  meet : ∀ {n n' m : Nat}, nested.Meet seam n' n → merged n m → merged n' m

end Breadboard.Netlist
