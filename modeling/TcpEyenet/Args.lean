import TcpEyenet.Lib.Traced

/-! The command line of the sender, from vns_args. The log of a call holds its warnings. -/
namespace TcpEyenet

inductive CongestionType
  | linux
  | eyenet
  deriving DecidableEq

inductive SwitchingType
  | time
  | bytes
  deriving DecidableEq

inductive TrafficDistType
  | exponential
  | deterministic
  deriving DecidableEq

structure SenderArgs where
  cycles : Int32
  dstPort : Int32
  srcPort : Int32
  onUnits : Int32
  offUnits : Int32
  bnTrain : Int32
  dstIp : String
  trafficDist : TrafficDistType
  switcher : SwitchingType
  cong : CongestionType
  deriving DecidableEq

/-- The options on a command line, as the option library reads them. -/
structure Given where
  help : Bool
  cong : Option String
  dstIp : Option String
  dstPort : Option Int32
  srcPort : Option Int32
  trafficDist : Option String
  onUnit : Option Int32
  offUnit : Option Int32
  cycles : Option Int32
  bnTrain : Option Int32
  switcher : Option String

/-- A word out of a table, and the first of the table with a warning for any other word. -/
def pick {α : Type} (table : List (String × α)) (fallback : α) (warning : String)
    (word : String) : Traced String α :=
  match table.lookup word with
  | some a => pure a
  | none => ⟨fallback, [warning]⟩

def parseTrafficDist : String → Traced String TrafficDistType :=
  pick [("exponential", .exponential), ("deterministic", .deterministic)] .exponential
    "Unknown traffic distribution. Setting it to default 'exponential'"

def parseSwitcher : String → Traced String SwitchingType :=
  pick [("time", .time), ("bytes", .bytes)] .time
    "Unknown switching type. Setting it to default 'time'"

def parseCong : String → Traced String CongestionType :=
  pick [("linux", .linux), ("eyenet", .eyenet)] .linux
    "Unknown congestion control. Setting it to default 'linux'"

/-- `parse_sender_args`, without the texts of the library. It is given nothing where the library
throws on the command line. -/
def parseSenderArgs (parsed : Option Given) : Traced String (Option SenderArgs) :=
  match parsed with
  | none => ⟨none, ["Unknown error"]⟩
  | some g =>
    if g.help then pure none
    else
      match g.dstIp with
      | none => pure none
      | some dstIp => do
        let trafficDist ← parseTrafficDist (g.trafficDist.getD "exponential")
        let switcher ← parseSwitcher (g.switcher.getD "time")
        let cong ← parseCong (g.cong.getD "linux")
        pure
          (some
            { cycles := g.cycles.getD 1
              dstPort := g.dstPort.getD 8001
              srcPort := g.srcPort.getD 8001
              onUnits := g.onUnit.getD 5000
              offUnits := g.offUnit.getD 5000
              bnTrain := g.bnTrain.getD 1
              dstIp := dstIp
              trafficDist := trafficDist
              switcher := switcher
              cong := cong })

/-- A command line that names its destination, the congestion control of the repository, the
length of a train and nothing else. -/
def eyenetLine (bnTrain : Int32) : Given :=
  { help := false
    cong := some "eyenet"
    dstIp := some "127.0.0.1"
    dstPort := none
    srcPort := none
    trafficDist := none
    onUnit := none
    offUnit := none
    cycles := none
    bnTrain := some bnTrain
    switcher := none }

/-- Any length of a train is accepted. -/
theorem parse_eyenetLine (bnTrain : Int32) :
    ∃ args, (parseSenderArgs (some (eyenetLine bnTrain))).val = some args ∧
      args.cong = .eyenet ∧ args.bnTrain = bnTrain :=
  ⟨_, rfl, rfl, rfl⟩

end TcpEyenet
