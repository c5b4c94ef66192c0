import SoftFork.History.Clock
import SoftFork.Json.Record
import SoftFork.Network
import SoftFork.Signal.Phase

/-!
# JSON forms of networks, clocks and phases

A choice is written as its name.  It is read from its name alone, spelled
exactly; the spellings an operator may use at a keyboard are a different matter
and mean nothing here.
-/

namespace SoftFork

instance : Form Network where
  encode n := .text n.name
  decode v := v.choice?.bind Network.ofName?

instance : Form Clock where
  encode c := .text c.name
  decode v := v.choice?.bind Clock.ofName?

instance : Form Phase where
  encode p := .text p.name
  decode v := v.choice?.bind Phase.ofName?

namespace Form

theorem decode_encode_network (n : Network) : decode (encode n) = some n :=
  Network.ofName?_name n

theorem decode_encode_clock (c : Clock) : decode (encode c) = some c :=
  Clock.ofName?_name c

theorem decode_encode_phase (p : Phase) : decode (encode p) = some p :=
  Phase.ofName?_name p

end Form
end SoftFork
