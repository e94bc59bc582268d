import Groupcast.Agreement.Lattice
import Groupcast.Broadcast.Fifo
import Groupcast.CommandLine
import Groupcast.Config
import Groupcast.Failure
import Groupcast.Node

/-!
# Assignments

From the options of a process to the node that it runs and the commands that the node is given.
-/

namespace Groupcast

/-- What a process knows once its configuration files are read. -/
structure Settings where
  self : Host
  hosts : Hosts
  scenario : Scenario
  tuning : Tuning
  detectFailures : Bool
  deriving DecidableEq

/-- A node and the commands that it is given. -/
structure Assignment where
  {π : Type}
  [protocol : Protocol π]
  node : Node π
  commands : List (Protocol.Command π)

namespace Settings

/-- Says what a failure to set up was about. -/
def during {α : Type} (summary : String) : Except SetupError α → Except Failure α
  | .ok a => .ok a
  | .error e => .error ((Failure.ofSetupError e).within summary)

/-- The settings that options lead to, if the log filter is not fatal: the hosts, the scenario and
the tuning are loaded in that order, and after that the process looks for itself among the hosts. -/
def load (files : FileReader) (o : Options) : Except Failure Settings := do
  if o.logFilter.isFatal then throw ⟨DirectiveError.cutsCharacter.message, [], 101⟩
  let hosts ← during s!"loading hosts from {o.hosts}" (Hosts.load files o.hosts)
  let scenario ← during s!"loading scenario from {o.config}"
    (Scenario.load files o.mode o.config)
  let tuning ← match o.tuning with
    | some path => during s!"loading tuning from {path}" (Tuning.load files path)
    | none => pure {}
  match hosts.localHost o.id with
  | .ok self => pure { self, hosts, scenario, tuning, detectFailures := o.detectFailures }
  | .error e => throw (.ofSetupError e)

/-- The numbers from one to `n`. -/
def numbersTo (n : UInt32) : List UInt32 := (List.range n.toNat).map fun i => UInt32.ofNat (i + 1)

/-- The payload of a message that tells its own number. -/
def payload (seq : UInt32) : Bytes := .ofText (toString seq)

/-- The node of a process, with a failure detector if it is to have one. -/
def node {π : Type} (s : Settings) (make : HostId → Hosts → Tuning → π) : Node π where
  host := s.self
  hosts := s.hosts
  protocol := make s.self.id s.hosts s.tuning
  detector := if s.detectFailures then some (.ofHosts s.self.id s.hosts s.tuning) else none

/-- What the scenario makes of a process. -/
def assignment (s : Settings) : Assignment :=
  match s.scenario with
  | .links messages receiver =>
    let commands : List Links.Command :=
      if s.self.id = receiver then []
      else (numbersTo messages).map fun seq => ⟨receiver, seq, payload seq⟩
    { node := s.node Links.ofHosts, commands }
  | .fifo messages =>
    { node := s.node FifoBroadcast.ofHosts, commands := (numbersTo messages).map payload }
  | .lattice proposals =>
    let commands : List SlotValues :=
      proposals.zipIdx.map fun (values, i) => ⟨UInt32.ofNat (i + 1), values⟩
    { node := s.node LatticeAgreement.ofHosts, commands }

end Settings

end Groupcast
