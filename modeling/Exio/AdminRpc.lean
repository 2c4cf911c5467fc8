import Exio.AdminListener
/-!
# AdminRpc — a command, from the command line to the return value

The command line client sends a logon and a request, and waits (`__main`).  The server handles the messages of the session in
their order: with the logon it notes what the client wants and describes its commands, the request it answers, and it closes the
session behind a response that is the last, if the client wants that.  A worker of the client prints the responses; the main
thread returns with the code of the last.

Both directions are connections as in `Transport`, which other threads use as well: the server's for tables, alerts and
heartbeats, and for the responses that an application sends later to a request it left pending.  A command is taken to run at
once on the application's state.  What is behind the return of `wait_for_session_closure` is left out.

**A command runs at most once, and with the arguments it was given; the client returns what the server answered, or 0 if the
connection ended before** (`rpc_exit`).
-/
namespace Exio

open Sam

/-! ## The messages -/

/-- The logon of `__main`, for a program that was given a command. -/
def logonMessage (serviceid user : Bytes) : TxMessage :=
  let root := putFieldQ serviceid Id.qnServiceid []
  let root := putFieldQ user Id.qnHeadUser root
  let root := putFieldQ Id.true_ Id.qnNoautosub root
  ⟨Id.msgLogon, putFieldQ Id.true_ Id.qnAutoclose root⟩

def isRequest (m : TxMessage) : Bool := m.type == Id.msgRequest

/-- The messages the client acts on. -/
def isAnswer (m : TxMessage) : Bool := m.type == Id.msgBye || m.type == Id.msgResponse

/-! ## The two processes -/

/-- The command line, the server, and what is behind the messages in the two read buffers. -/
structure RpcSetup (σ τ : Type) where
  atoi      : Bytes → CInt
  invoke    : Admins τ → τ → σ → AdminRequest → σ × Invoked
  options   : ProgramOptions
  serviceid : Bytes
  user      : Bytes
  sid       : Nat
  ioHandle  : Bool
  beyond    : UInt8
  reads     : ReadsNumerals atoi
  command   : options.cmd ≠ []
  args      : options.cmdargs.length < 2 ^ 31
  responds  : ∀ admins target app req, (invoke admins target app req).2.Responds

/-- The main thread of the client; `failed` is its `exit(1)`. -/
inductive MainPc where
  | logon
  | request
  | wait
  | failed
  | done (retval : Int)
deriving DecidableEq

/-- What the session of the server keeps of its peer's logon, and whether it was subscribed with it. -/
structure SessionPeer where
  logonReceived : Bool
  serviceid     : Bytes
  username      : Bytes
  autoclose     : Bool
  subscribed    : Bool

def SessionPeer.new : SessionPeer := ⟨false, [], [], false, false⟩

/-- A logon in `io_onmsg` and in `handle_logon_msg`; a second one changes neither name. -/
def SessionPeer.logon (p : SessionPeer) (m : TxMessage) : SessionPeer where
  logonReceived := true
  serviceid     := if p.logonReceived then p.serviceid else (findFieldQ Id.qnServiceid m.root).getD p.serviceid
  username      := if p.logonReceived then p.username else (findFieldQ Id.qnHeadUser m.root).getD p.username
  autoclose     := p.autoclose || checkFieldQ Id.qnAutoclose Id.true_ m.root
  subscribed    := p.subscribed || !checkFieldQ Id.qnNoautosub Id.true_ m.root

/-- The worker of the server, in `session_msg_received`. -/
inductive ServePc where
  | next
  /-- `handle_logon_msg` is about to send the description. -/
  | describe (m : TxMessage)
  /-- `handle_admin_request` is about to send the response. -/
  | reply (r : AdminReply) (reqseqno : Bytes)
  /-- It is about to send the stock error. -/
  | stock (resp : TxMessage) (reqseqno : Bytes)
  /-- It is about to close the session, if that is wanted. -/
  | finish (resp : TxMessage)

def ServePc.idle : ServePc → Bool
  | .next => true
  | _     => false

/-- A request that was handled, with the state in which it was. -/
structure Served (σ τ : Type) where
  request : TxMessage
  admins  : Admins τ
  app     : σ
  reply   : AdminReply

/-- The sequence number a response is given. -/
def Served.reqseqno {σ τ : Type} (v : Served σ τ) : Bytes := (findFieldQ Id.qnHeadReqseqno v.request.root).getD []

/-- `heard` and `handled` count the messages that the workers have taken; `sent` and `later` are what the queue took of the
server's responses and of those the application sent later. -/
structure Rpc (σ τ : Type) where
  main     : MainPc
  listener : AdminListener
  heard    : Nat
  toServer : Wire
  toClient : Wire
  serve    : ServePc
  handled  : Nat
  peer     : SessionPeer
  admins   : Admins τ
  app      : σ
  served   : List (Served σ τ)
  sent     : List TxMessage
  later    : List TxMessage

inductive RpcAct (σ τ : Type) where
  /- the client -/
  | main (addr : Nat)
  | hear
  | clientClosed
  /- the server -/
  | serve (addr : Nat)
  | serverClosed
  | later (addr : Nat) (m : TxMessage)
  | adminAdd (ac : RegisteredAdmin τ)
  | appChange (app : σ)
  /- the reactors, the workers and the other threads -/
  | up (a : WireAct)
  | down (a : WireAct)

section

variable {σ τ : Type}

def Rpc.new (admins : Admins τ) (app : σ) : Rpc σ τ :=
  ⟨.logon, .new, 0, .new, .new, .next, 0, .new, admins, app, [], [], []⟩

namespace RpcSetup

variable (e : RpcSetup σ τ)

def request : TxMessage := requestMessage e.options e.serviceid e.user

def wire (w : Wire) (a : WireAct) : Option Wire := wireStep e.ioHandle e.beyond w a

end RpcSetup

/-- What `enqueueToSend` returns. -/
def Wire.enqueueFails (w : Wire) (addr : Nat) (m : TxMessage) : Bool :=
  (enqueueToSend ⟨w.sessionValid, some w.out.q⟩ addr m).2

/-- What a step of a connection made its queue take. -/
def Wire.taken (w w' : Wire) : List TxMessage := w'.messages.drop w.messages.length

variable (e : RpcSetup σ τ)

/-- The main thread of the client. -/
def mainStep (s : Rpc σ τ) (addr : Nat) : Option (Rpc σ τ) :=
  match s.main with
  | .logon   => (e.wire s.toServer (.enqueueToSend addr (logonMessage e.serviceid e.user))).map fun w =>
    { s with main := .request, toServer := w }
  | .request => (e.wire s.toServer (.enqueueToSend addr e.request)).map fun w =>
    { s with main := if s.toServer.enqueueFails addr e.request then .failed else .wait, toServer := w }
  | .wait    => if s.listener.sessionOpen then none else some { s with main := .done s.listener.retval }
  | .failed  => none
  | .done _  => none

/-- The server's worker takes a message. -/
def takeMessage (s : Rpc σ τ) (m : TxMessage) : Rpc σ τ :=
  let s := { s with handled := s.handled + 1 }
  if s.toClient.sessionValid = false then s
  else if m.type = Id.msgLogon then { s with peer := s.peer.logon m, serve := .describe (serialiseAdmins s.admins) }
  else if m.type = Id.msgRequest then
    let r := answerRequest e.atoi e.invoke s.admins s.app e.sid m
    let v : Served σ τ := ⟨m, s.admins, s.app, r.2⟩
    { s with app := r.1, served := s.served ++ [v], serve := if r.2.send then .reply r.2 v.reqseqno else .finish r.2.msg }
  else s

/-- The worker of the server. -/
def serveStep (s : Rpc σ τ) (addr : Nat) : Option (Rpc σ τ) :=
  match s.serve with
  | .next       => ((delivered s.toServer.events)[s.handled]?).map (takeMessage e s)
  | .describe m => (e.wire s.toClient (.enqueueToSend addr m)).map fun w => { s with serve := .next, toClient := w }
  | .reply r reqseqno => (e.wire s.toClient (.enqueueToSend addr r.message)).map fun w =>
    { s with
      serve    := if s.toClient.enqueueFails addr r.message then .stock r.message reqseqno else .finish r.message
      toClient := w
      sent     := s.sent ++ s.toClient.taken w }
  | .stock resp reqseqno => (e.wire s.toClient (.enqueueToSend addr (enqueueFailed reqseqno))).map fun w =>
    { s with serve := .finish resp, toClient := w, sent := s.sent ++ s.toClient.taken w }
  | .finish resp =>
    if hasPending resp = false ∧ s.peer.autoclose = true then
      (e.wire s.toClient (.close addr)).map fun w => { s with serve := .next, toClient := w }
    else some { s with serve := .next }

/-- **One step of one thread** of the two processes. -/
def rpcStep (s : Rpc σ τ) : RpcAct σ τ → Option (Rpc σ τ)
  | .main addr => mainStep e s addr
  | .hear =>
    ((delivered s.toClient.events)[s.heard]?).map fun m =>
      { s with
        heard    := s.heard + 1
        listener := if s.toServer.sessionValid = false then s.listener else s.listener.sessionMsgReceived e.atoi m }
  | .clientClosed =>
    if s.toClient.input.cb = false ∧ s.heard = (delivered s.toClient.events).length ∧ s.toServer.sessionValid = true then
      (e.wire s.toServer .processClose).map fun w => { s with toServer := w, listener := s.listener.sessionClosed }
    else none
  | .serve addr => serveStep e s addr
  | .serverClosed =>
    if s.toServer.input.cb = false ∧ s.handled = (delivered s.toServer.events).length ∧ s.serve.idle = true ∧
        s.toClient.sessionValid = true then
      (e.wire s.toClient .processClose).map fun w => { s with toClient := w }
    else none
  | .later addr m => (e.wire s.toClient (.enqueueToSend addr m)).map fun w =>
    { s with toClient := w, later := s.later ++ s.toClient.taken w }
  | .adminAdd ac    => some { s with admins := s.admins.add ac }
  | .appChange app  => some { s with app := app }
  | .up .processClose   => none
  | .up a               => (e.wire s.toServer a).map fun w => { s with toServer := w }
  | .down .processClose => none
  | .down a             => (e.wire s.toClient a).map fun w => { s with toClient := w }

/-! ## What the rest of the two programs does -/

/-- The message a thread enqueues, if it is at that. -/
def WireAct.enqueued : WireAct → Option TxMessage
  | .enqueueToSend _ m => some m
  | _                  => none

/-- The response to a request was sent, or is not to be. -/
def ServePc.answered : ServePc → Bool
  | .reply .. | .stock .. => false
  | _                     => true

/-- Other threads send no requests and no answers, what they send is carried, and an application sends a later response to a
request it was asked and has left pending. -/
def RpcKeeps (s : Rpc σ τ) : RpcAct σ τ → Prop
  | .up a        => s.toServer.Fits a ∧ ∀ m ∈ a.enqueued, Plain m ∧ isRequest m = false
  | .down a      => s.toClient.Fits a ∧ ∀ m ∈ a.enqueued, Plain m ∧ isAnswer m = false
  | .later _ m   => Plain m ∧ m.type = Id.msgResponse ∧ s.served ≠ [] ∧ s.serve.answered = true ∧
    ∀ m ∈ s.sent ++ s.later, hasPending m = true
  | .adminAdd ac => ac.Plain
  | _            => True

end

end Exio
