/-!
# Qubits and path names

A circuit acts on *virtual* qubits, a device has *physical* ones. Both are numbered from zero, and so
are the paths of a registry.
-/

namespace QubitRouting

/-- A qubit of the device, by number. -/
abbrev Qubit := Nat

/-- A qubit of the circuit, by number. -/
abbrev VirtualQubit := Nat

/-- The name of a path in a registry: the number of the slot that holds it. -/
abbrev PathId := Nat

/-- An exchange of the states of two physical qubits. -/
abbrev Swap := Qubit × Qubit

end QubitRouting
