import Mathlib

namespace OhlcvValidator

namespace Ingest

/-! A `std::string` is its bytes, as in the parser's types. -/

/-- The fields of the configuration that the client's messages and its read loop use. -/
structure AlpacaConfig where
  keyId : List UInt8
  secretKey : List UInt8
  autoReconnect : Bool := true
  deriving DecidableEq, Repr

/-- What the client writes to the stream; each message is one JSON object. -/
inductive ClientMessage
  | auth (key secret : List UInt8)
  | subscribe (trades quotes bars : List (List UInt8))
  deriving DecidableEq, Repr

/-- One websocket stream: what was written to it, in order, and the frames that the ingest
loop got from it. -/
structure Connection where
  sent : List ClientMessage := []
  frames : List (List UInt8) := []
  deriving DecidableEq, Repr

/-- The client's fields. `replaced` keeps the streams that a later `connect` took the place of. -/
structure AlpacaClient where
  config : AlpacaConfig
  ws : Option Connection := none
  replaced : List Connection := []
  subTrades : List (List UInt8) := []
  subQuotes : List (List UInt8) := []
  subBars : List (List UInt8) := []
  subscribed : Bool := false
  deriving DecidableEq, Repr

namespace AlpacaClient

/-- All streams of the session, the current one last. -/
def connections (c : AlpacaClient) : List Connection :=
  c.replaced ++ c.ws.toList

/-- A new stream takes the place of the old one before anything can fail. -/
def connect (c : AlpacaClient) : AlpacaClient :=
  { c with replaced := c.connections, ws := some {} }

def write (c : AlpacaClient) (msg : ClientMessage) : AlpacaClient :=
  { c with ws := c.ws.map fun k => { k with sent := k.sent ++ [msg] } }

def authenticate (c : AlpacaClient) : AlpacaClient :=
  c.write (.auth c.config.keyId c.config.secretKey)

def sendSubscribe (c : AlpacaClient) (trades quotes bars : List (List UInt8)) : AlpacaClient :=
  c.write (.subscribe trades quotes bars)

/-- Remember the subscription, so that a reconnect can replay it. -/
def remember (c : AlpacaClient) (trades quotes bars : List (List UInt8)) : AlpacaClient :=
  { c with subTrades := trades, subQuotes := quotes, subBars := bars, subscribed := true }

def subscribe (c : AlpacaClient) (trades quotes bars : List (List UInt8)) : AlpacaClient :=
  (c.remember trades quotes bars).sendSubscribe trades quotes bars

/-- A frame that the ingest loop gets from the current stream. -/
def returned (c : AlpacaClient) (frame : List UInt8) : AlpacaClient :=
  { c with ws := c.ws.map fun k => { k with frames := k.frames ++ [frame] } }

end AlpacaClient

/-- The statements of `main` that use the stream, in order. The last one is the ingest loop's. -/
inductive MainStep
  | connect
  | readWelcome
  | authenticate
  | readAuth
  | subscribe
  | readSubscription
  | readLoop
  deriving DecidableEq, Repr

/-- The statements of `establish` that use the stream. -/
inductive EstablishStep
  | connect
  | authenticate
  | subscribe
  deriving DecidableEq, Repr

/-- Where the program is: at a statement of `main`, in the `establish` that a failed read of
`main` called, or after `main` has caught an exception. -/
inductive Phase
  | main (step : MainStep)
  | establishing (reader : MainStep) (step : EstablishStep)
  | fatal
  deriving DecidableEq, Repr

/-- How an operation on the stream ends. The payload is a read's. -/
inductive Outcome
  | done (payload : List UInt8)
  | failed
  deriving DecidableEq, Repr

open AlpacaClient

/-- One operation inside `establish`. Whatever fails starts the next attempt. -/
def establishStep (c : AlpacaClient) (reader : MainStep) :
    EstablishStep → Outcome → AlpacaClient × Phase
  | .connect, .done _ => (c.connect, .establishing reader .authenticate)
  | .connect, .failed => (c.connect, .establishing reader .connect)
  | .authenticate, .done _ =>
    (c.authenticate, if c.subscribed then .establishing reader .subscribe else .main reader)
  | .subscribe, .done _ => (c.sendSubscribe c.subTrades c.subQuotes c.subBars, .main reader)
  | .authenticate, .failed | .subscribe, .failed => (c, .establishing reader .connect)

/-- One read inside `read_frame`: the frame goes to `main`, a failure to `establish`. -/
def readFrame (c : AlpacaClient) (reader next : MainStep) : Outcome → AlpacaClient × Phase
  | .done payload => (if reader = .readLoop then c.returned payload else c, .main next)
  | .failed =>
    if c.config.autoReconnect then (c, .establishing reader .connect) else (c, .fatal)

/-- One operation of `main`. -/
def mainStep (symbols : List (List UInt8)) (c : AlpacaClient) :
    MainStep → Outcome → AlpacaClient × Phase
  | .connect, .done _ => (c.connect, .main .readWelcome)
  | .connect, .failed => (c.connect, .fatal)
  | .readWelcome, o => readFrame c .readWelcome .authenticate o
  | .authenticate, .done _ => (c.authenticate, .main .readAuth)
  | .authenticate, .failed => (c, .fatal)
  | .readAuth, o => readFrame c .readAuth .subscribe o
  | .subscribe, .done _ => (c.subscribe symbols symbols symbols, .main .readSubscription)
  | .subscribe, .failed => (c.remember symbols symbols symbols, .fatal)
  | .readSubscription, o => readFrame c .readSubscription .readLoop o
  | .readLoop, o => readFrame c .readLoop .readLoop o

/-- One operation on the stream, wherever the program is. -/
def ingestStep (symbols : List (List UInt8)) (s : AlpacaClient × Phase) (o : Outcome) :
    AlpacaClient × Phase :=
  match s.2 with
  | .main step => mainStep symbols s.1 step o
  | .establishing reader step => establishStep s.1 reader step o
  | .fatal => s

/-- The program as far as the outcomes of its operations go. -/
def ingest (config : AlpacaConfig) (symbols : List (List UInt8)) (outcomes : List Outcome) :
    AlpacaClient × Phase :=
  outcomes.foldl (ingestStep symbols) ({ config := config }, .main .connect)

end Ingest

end OhlcvValidator
