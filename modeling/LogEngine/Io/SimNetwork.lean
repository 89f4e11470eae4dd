import LogEngine.Base.Buffer
import LogEngine.Io.Disk
import LogEngine.Sim.Scheduler

/-!
# The simulated network

`src/io/sim/sim_network.cpp`: every endpoint of the cluster, the directions that are cut,
and the deliveries that are scheduled.  The calls of a node's `SimNetwork` take the node;
what they draw at random is an argument.  A `ConnId` is a position in the list of
endpoints, and `kInvalidConn` is `none`.

Readiness (`watch`, `poll`), the trace and the counters that only tests read are left out.
`cut_both`, `heal_both` and `heal_all` are several calls of `cut` and `heal`.

The last fields of an `Endpoint` record what has happened to its bytes; no function reads
them.
-/

namespace LogEngine.Io

open Base Sim

/-- The fields of `NetworkFaultConfig` that are not drawn from. -/
structure NetworkFaultConfig where
  partitionResetDelay : Int := 50000000
  sendWindowBytes : Nat := 64 * 1024

/-- `Fabric::Endpoint`. -/
structure Endpoint where
  node : Nat := 0
  listener : Bool := false
  isOpen : Bool := false
  reset : Bool := false
  peerClosed : Bool := false
  port : Nat := 0
  peer : Option Nat := none
  rx : Buffer := Buffer.empty
  inFlight : Nat := 0
  lastDelivery : Int := 0
  backlog : List Nat := []
  /-- What `write` has reported as accepted on this end. -/
  accepted : Bytes := []
  /-- What `read` has returned on this end. -/
  returned : Bytes := []
  /-- What `write` has accepted on this end and dropped. -/
  lost : Bytes := []
  /-- What was delivered to this end when it was not open. -/
  missed : Bytes := []

/-- `write` has scheduled bytes of this end. -/
def Endpoint.send (due : Int) (data : Bytes) (ep : Endpoint) : Endpoint :=
  { ep with
    lastDelivery := due
    inFlight := ep.inFlight + data.length
    accepted := ep.accepted ++ data }

/-- `write` has accepted bytes of this end that go nowhere. -/
def Endpoint.lose (data : Bytes) (ep : Endpoint) : Endpoint :=
  { ep with accepted := ep.accepted ++ data, lost := ep.lost ++ data }

/-- The end of `deliver`: the target takes the bytes as long as it is open. -/
def Endpoint.arrive (payload : Bytes) (dst : Endpoint) : Endpoint :=
  if dst.reset = true ∨ dst.isOpen = false then { dst with missed := dst.missed ++ payload }
  else { dst with rx := dst.rx.append payload }

/-- What the fabric schedules. -/
inductive Fabric.Callback
  /-- The callback of `connect`. -/
  | accept (listener server : Nat)
  /-- The callback of `write`. -/
  | deliver (source target : Nat) (payload : Bytes)
  /-- The callback of `schedule_partition_resets`. -/
  | partitionReset (source target : Nat)
  deriving DecidableEq

structure Fabric where
  config : NetworkFaultConfig
  scheduler : Scheduler Fabric.Callback
  endpoints : List Endpoint
  nodeEndpoints : Nat → Option (List Nat)
  names : String → Option Nat
  listeners : Nat × Nat → Option Nat
  cuts : List (Nat × Nat)
  nextEphemeralPort : Nat

namespace Fabric

/-- The fabric of a new simulation. -/
def start (config : NetworkFaultConfig) : Fabric where
  config := config
  scheduler := Scheduler.start
  endpoints := []
  nodeEndpoints := fun _ => none
  names := fun _ => none
  listeners := fun _ => none
  cuts := []
  nextEphemeralPort := 40000

variable (f : Fabric)

def endpoint (id : Nat) : Option Endpoint := f.endpoints[id]?

/-- An endpoint is written through its pointer. -/
def modify (id : Nat) (change : Endpoint → Endpoint) : Fabric :=
  { f with endpoints := f.endpoints.modify id change }

/-- `add_node`. -/
def addNode (node : Nat) (name : String) : Fabric :=
  { f with
    names := Function.update f.names name (some node)
    nodeEndpoints := Function.update f.nodeEndpoints node (some ((f.nodeEndpoints node).getD [])) }

/-- `new_endpoint`; its identifier is the number of endpoints before. -/
def newEndpoint (e : Endpoint) : Fabric :=
  { f with
    endpoints := f.endpoints ++ [{ e with isOpen := true }]
    nodeEndpoints := Function.update f.nodeEndpoints e.node
      (some ((f.nodeEndpoints e.node).getD [] ++ [f.endpoints.length])) }

/-! ## Partitions and resets -/

/-- `is_cut`. -/
def isCut (source target : Nat) : Bool := decide ((source, target) ∈ f.cuts)

/-- `cut`, and `schedule_partition_resets` at its end. -/
def cut (source target : Nat) : Fabric :=
  if source = target then f
  else if f.isCut source target then f
  else
    { f with
      cuts := (source, target) :: f.cuts
      scheduler := f.scheduler.scheduleAfter f.config.partitionResetDelay
        (.partitionReset source target) }

/-- `heal`. -/
def heal (source target : Nat) : Fabric :=
  { f with cuts := f.cuts.filter (· ≠ (source, target)) }

/-- `reset_connection` when the peer is not to be notified. -/
def resetOne (id : Nat) : Fabric :=
  match f.endpoint id with
  | none => f
  | some ep =>
      if ep.reset then f else f.modify id fun ep => { ep with reset := true, isOpen := false }

/-- `reset_connection`, with the peer. -/
def resetConnection (id : Nat) : Fabric :=
  match f.endpoint id with
  | none => f
  | some ep =>
      if ep.reset then f
      else
        match ep.peer with
        | none => f.resetOne id
        | some peer => (f.resetOne id).resetOne peer

/-- One round of the loop over a node's endpoints when a partition gives up. -/
def resetAcross (target : Nat) (id : Nat) : Fabric :=
  match f.endpoint id with
  | none => f
  | some ep =>
      if ep.listener || ep.reset then f
      else
        match ep.peer.bind f.endpoint with
        | none => f
        | some peer => if peer.node ≠ target then f else f.resetConnection id

/-- What `schedule_partition_resets` schedules. -/
def partitionReset (source target : Nat) : Fabric :=
  if f.isCut source target = false then f
  else
    match f.nodeEndpoints source with
    | none => f
    | some ids => ids.foldl (fun f id => f.resetAcross target id) f

/-- One round of the loop of `kill_node_connections`. -/
def killEndpoint (node : Nat) (id : Nat) : Fabric :=
  match f.endpoint id with
  | none => f
  | some ep =>
      if ep.listener then
        { f.modify id fun ep => { ep with isOpen := false, backlog := [] } with
          listeners := Function.update f.listeners (node, ep.port) none }
      else f.resetConnection id

/-- `kill_node_connections`. -/
def killNodeConnections (node : Nat) : Fabric :=
  match f.nodeEndpoints node with
  | none => f
  | some ids =>
      let killed := ids.foldl (fun f id => f.killEndpoint node id) f
      { killed with nodeEndpoints := Function.update killed.nodeEndpoints node (some []) }

/-! ## The calls of a node -/

/-- `listen`, once the port is known. -/
def listenOn (node bound : Nat) : Except ErrorCode Nat × Fabric :=
  if (f.listeners (node, bound)).isSome then (.error .invalidArgument, f)
  else
    let id := f.endpoints.length
    let made := f.newEndpoint { node := node, listener := true, port := bound }
    (.ok id, { made with listeners := Function.update made.listeners (node, bound) (some id) })

/-- `listen`: port 0 asks for one that is not taken. -/
def listen (node port : Nat) : Except ErrorCode Nat × Fabric :=
  if port = 0 then
    { f with nextEphemeralPort := (f.nextEphemeralPort + 1) % 0x10000 }.listenOn node
      f.nextEphemeralPort
  else f.listenOn node port

/-- `accept`. -/
def accept (node listener : Nat) : Except ErrorCode Nat × Fabric :=
  match f.endpoint listener with
  | none => (.error .notFound, f)
  | some ep =>
      if ep.listener = false ∨ ep.node ≠ node ∨ ep.isOpen = false then (.error .notFound, f)
      else
        match ep.backlog with
        | [] => (.error .wouldBlock, f)
        | conn :: pending =>
            (.ok conn, f.modify listener fun ep => { ep with backlog := pending })

/-- The callback of `connect`: the listener hears of the connection. -/
def accepted (listener server : Nat) : Fabric :=
  match f.endpoint listener with
  | none => f.resetConnection server
  | some target =>
      if target.isOpen = false ∨ target.listener = false then f.resetConnection server
      else
        match f.endpoint server with
        | none => f
        | some pending =>
            if pending.reset then f
            else f.modify listener fun ep => { ep with backlog := ep.backlog ++ [server] }

/-- The two ends that `connect` makes, each the other's peer. -/
def newConnection (node peerNode port : Nat) : Fabric :=
  let client := f.endpoints.length
  let server := client + 1
  (f.newEndpoint { node := node, port := port, peer := some server }).newEndpoint
    { node := peerNode, port := port, peer := some client }

/-- `connect`. -/
def connect (node : Nat) (host : String) (port : Nat) (latency : Int) :
    Except ErrorCode Nat × Fabric :=
  match f.names host with
  | none => (.error .notFound, f)
  | some peerNode =>
      if f.isCut node peerNode || f.isCut peerNode node then (.error .requestTimedOut, f)
      else
        match f.listeners (peerNode, port) with
        | none => (.error .notFound, f)
        | some listener =>
            let made := f.newConnection node peerNode port
            (.ok f.endpoints.length,
              { made with
                scheduler := made.scheduler.scheduleAfter latency
                  (.accept listener (f.endpoints.length + 1)) })

/-- `read` into a buffer of `room` bytes; the bytes are the result. -/
def read (node conn room : Nat) : Except ErrorCode Bytes × Fabric :=
  match f.endpoint conn with
  | none => (.error .notFound, f)
  | some ep =>
      if ep.node ≠ node ∨ ep.listener = true then (.error .notFound, f)
      else if ep.reset then (.error .closed, f)
      else if ep.rx.size ≠ 0 then
        let n := min room ep.rx.size
        let data := ep.rx.contents.take n
        (.ok data, f.modify conn fun _ =>
          { ep with
            rx := ep.rx.consume n (Nat.min_le_right _ _)
            returned := ep.returned ++ data })
      else if ep.peerClosed then (.ok [], f)
      else if ep.isOpen = false then (.error .closed, f)
      else (.error .wouldBlock, f)

/-- How much `write` takes when there is `room`; a short write takes `1 + k` of it. -/
def writeCount (length room : Nat) (short : Option Nat) : Nat :=
  let n := min length room
  match short with
  | none => n
  | some k => if 1 < n then 1 + k % n else n

/-- The end of `write`: what was taken is scheduled to arrive. -/
def sendOff (conn peer : Nat) (due : Int) (data : Bytes) : Fabric :=
  { f.modify conn (Endpoint.send due data) with
    scheduler := f.scheduler.scheduleAt due (.deliver conn peer data) }

/-- `write`. -/
def write (node conn : Nat) (data : Bytes) (short : Option Nat) (latency : Int) :
    Except ErrorCode Nat × Fabric :=
  match f.endpoint conn with
  | none => (.error .notFound, f)
  | some ep =>
      if ep.node ≠ node ∨ ep.listener = true then (.error .notFound, f)
      else if ep.reset = true ∨ ep.isOpen = false then (.error .closed, f)
      else if data = [] then (.ok 0, f)
      else if f.config.sendWindowBytes ≤ ep.inFlight then (.error .wouldBlock, f)
      else
        let n := writeCount data.length (f.config.sendWindowBytes - ep.inFlight) short
        match ep.peer with
        | none => (.ok n, f.modify conn (Endpoint.lose (data.take n)))
        | some peer =>
            match f.endpoint peer with
            | none => (.ok n, f.modify conn (Endpoint.lose (data.take n)))
            | some far =>
                if far.reset then (.ok n, f.modify conn (Endpoint.lose (data.take n)))
                else if f.isCut node far.node then
                  (.ok n, f.modify conn (Endpoint.lose (data.take n)))
                else
                  -- never let a later write land before an earlier one
                  let due := max (f.scheduler.now + latency) ep.lastDelivery
                  (.ok n, f.sendOff conn peer due (data.take n))

/-- The callback of `write`. -/
def deliver (source target : Nat) (payload : Bytes) : Fabric :=
  (f.modify source fun ep => { ep with inFlight := ep.inFlight - payload.length }).modify target
    (Endpoint.arrive payload)

/-- `close`. -/
def close (node conn : Nat) : Fabric :=
  match f.endpoint conn with
  | none => f
  | some ep =>
      if ep.node ≠ node then f
      else
        let parted :=
          if ep.listener then
            ep.backlog.foldl (fun f id => f.resetConnection id)
              { f.modify conn fun ep => { ep with backlog := [] } with
                listeners := Function.update f.listeners (node, ep.port) none }
          else
            match ep.peer with
            | none => f
            | some peer => f.modify peer fun ep => { ep with peerClosed := true }
        parted.modify conn fun ep => { ep with isOpen := false }

/-! ## Runs -/

/-- A callback runs. -/
def run : Callback → Fabric
  | .accept listener server => f.accepted listener server
  | .deliver source target payload => f.deliver source target payload
  | .partitionReset source target => f.partitionReset source target

inductive Action
  | addNode (node : Nat) (name : String)
  | listen (node port : Nat)
  | accept (node listener : Nat)
  | connect (node : Nat) (host : String) (port : Nat) (latency : Int)
  | read (node conn room : Nat)
  | write (node conn : Nat) (data : Bytes) (short : Option Nat) (latency : Int)
  | close (node conn : Nat)
  | cut (source target : Nat)
  | heal (source target : Nat)
  | killNodeConnections (node : Nat)
  /-- The earliest event runs if it is due by `limit`. -/
  | runNextBefore (limit : Int)
  /-- Time passes, for a timer of a node say. -/
  | advanceTo (deadline : Int)
  deriving DecidableEq

def next : Action → Option Fabric
  | .addNode node name => some (f.addNode node name)
  | .listen node port => some (f.listen node port).2
  | .accept node listener => some (f.accept node listener).2
  | .connect node host port latency => some (f.connect node host port latency).2
  | .read node conn room => some (f.read node conn room).2
  | .write node conn data short latency => some (f.write node conn data short latency).2
  | .close node conn => some (f.close node conn)
  | .cut source target => some (f.cut source target)
  | .heal source target => some (f.heal source target)
  | .killNodeConnections node => some (f.killNodeConnections node)
  | .runNextBefore limit =>
      (f.scheduler.runNextBefore limit).map fun due =>
        { f with scheduler := due.2 }.run due.1
  | .advanceTo deadline => some { f with scheduler := f.scheduler.advanceTo deadline }

end Fabric

end LogEngine.Io
