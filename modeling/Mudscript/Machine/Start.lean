import Mudscript.Machine.State

/-!
# New machines

A new machine has an empty stack and knows the functions of the host.
-/

namespace Mudscript

def Native.standard : List Native := [
  ⟨"clock", .exactly 0, .clock⟩,
  ⟨"print", .atMost 1, .print ""⟩,
  ⟨"println", .atMost 1, .print "\n"⟩,
  ⟨"load", .exactly 1, .load⟩]

namespace Machine

def define (m : Machine) (name : String) (v : Value) : Machine :=
  { m with globals := m.globals.insert name v }

def defineNative (m : Machine) (n : Native) : Machine := m.define n.name (.native n)

def start (settings : Settings) (library : Library) : Machine :=
  Native.standard.foldl defineNative { settings, library }

def ofSource (settings : Settings) (source : ObjectSource) : Machine :=
  start settings { source, extension := settings.objectExtension }

def ofSettings (settings : Settings) : Machine :=
  ofSource settings (.files settings.objectRoot settings.objectExtension)

end Machine

end Mudscript
