import Oreneta.Lib.Decimal
import Oreneta.Lib.DotFraming
import Oreneta.Lib.Talk
import Oreneta.Smtp.Message

/-!
# Handing a message to the server

`smtp.rs`: the transaction of one message, a command at a time (`submit`).

* `Request`, `Answer`, `submit` — what is said to the server, and the program that says it; a message that is no UTF-8 goes
  through the library's own transaction.
* `dataBody` — the text after DATA; `dataBody_framed`.
* `Held`, `Serve` — what the server has got, and what can happen to a request: it may be answered or not, and what is sent may
  arrive in part.
* `submit_verdict` — an error that is not marked uncertain means that the server has not taken the message, and success that it
  has, for all recipients.
-/

namespace Oreneta.Smtp

open DotFraming Talk List

/-! ## The text after DATA -/

/-- CR, LF and the dot, as octets. -/
def wire : Marks Nat where
  cr := 13
  lf := 10
  dot := 46
  lf_ne_cr := by decide
  dot_ne_cr := by decide

/-- `DataBody::new`, the text as its octets. -/
def dataBody (raw : Octets) : Option Octets := (Utf8.decode raw).map fun _ => frame wire raw

/-- What has arrived holds the line that ends the message. -/
def EndReceived (received : Octets) : Prop := [46] ∈ endedLines wire received

/-- **The text after DATA** has the line with the dot as its last line only, and without it and the doubled dots it is the
message, with a line end at its end. -/
theorem dataBody_framed {raw data : Octets} (h : dataBody raw = some data) :
    (∃ lines, endedLines wire data = lines ++ [[46]] ∧ [46] ∉ lines) ∧
      (((endedLines wire data).dropLast.map (unstuff wire)).flatMap fun line => line ++ [13, 10]) =
        if [13, 10].isSuffixOf raw then raw else raw ++ [13, 10] := by
  obtain ⟨_, -, rfl⟩ := Option.map_eq_some_iff.mp h
  refine ⟨⟨_, endedLines_frame raw, dot_notMem raw⟩, ?_⟩
  have hback := @unstuff_frame Nat _ wire raw
  rw [withoutEnding_append] at hback
  exact hback

/-! ## The program -/

inductive SmtpError where
  | transient
  | permanent
  /-- The connection or what came over it was broken. -/
  | broken
  deriving DecidableEq, Repr

/-- An explicit negative reply. -/
def isRefusal : SmtpError → Bool
  | .transient => true
  | .permanent => true
  | .broken => false

/-- What comes of a request: the library's answer, or none in time. -/
inductive Answer where
  | positive
  | failed (e : SmtpError)
  | elapsed
  deriving DecidableEq, Repr

abbrev Parameter := Str × Str

inductive Request where
  | mail (sender : Str) (parameters : List Parameter)
  | rcpt (recipient : Str) (parameters : List Parameter)
  | data
  /-- The text after DATA is written. -/
  | body (data : Octets)
  /-- The answer to it is read. -/
  | finish
  /-- The library's own transaction. -/
  | whole (sender : Str) (recipients : List Str) (raw : Octets)

/-- What an error says around its cause: a text, or the mark. -/
inductive Layer where
  | context (text : Str)
  | uncertainSend
  deriving DecidableEq, Repr

inductive Cause where
  | address
  | envelope
  | smtp (e : SmtpError)
  | timedOut (text : Str)
  deriving DecidableEq, Repr

structure Failure where
  layers : List Layer
  cause : Cause
  deriving DecidableEq, Repr

def isUncertain (e : Failure) : Bool := e.layers.contains .uncertainSend

def uncertain (e : Failure) : Failure := { e with layers := .uncertainSend :: e.layers }

def SMTP_COMMAND_TIMEOUT : Nat := 60

def SMTP_DATA_TIMEOUT : Nat := 300

/-- The error of `with_timeout`. -/
def timedOut (what : String) (limit : Nat) : Failure :=
  ⟨[], .timedOut (what.toList ++ (" timed out after " ++ (Decimal.ofNat limit ++ ['s'])))⟩

def refused (e : SmtpError) (label : String) : Failure := ⟨[.context label.toList], .smtp e⟩

def dsnMailParameters : List Parameter := [("RET", "HDRS")]

def dsnRcptParameters (recipient : Str) : List Parameter :=
  [("NOTIFY", "SUCCESS,FAILURE"), ("ORCPT", "rfc822;" ++ recipient)]

/-- One command, with its answer waited for. -/
def command (what label : String) (q : Request) : Talk Request Answer Failure Unit :=
  .ask q fun
    | .ok .positive => .done (.ok ())
    | .ok (.failed e) => .done (.error (refused e label))
    | .ok .elapsed => .done (.error (timedOut what SMTP_COMMAND_TIMEOUT))
    | .error e => .done (.error e)

def rcptAll (dsn : Bool) : List Str → Talk Request Answer Failure Unit
  | [] => pure ()
  | recipient :: recipients => do
    command "smtp rcpt to" "smtp RCPT TO" (.rcpt recipient (if dsn then dsnRcptParameters recipient else []))
    rcptAll dsn recipients

/-- The answer to the end of a message, or to a whole transaction: only a refusal is definite. -/
def concluded (asked : Bool) : Except Failure Answer → Talk Request Answer Failure Bool
  | .ok .positive => .done (.ok asked)
  | .ok (.failed e) =>
    if isRefusal e then .done (.error (refused e "smtp send")) else .done (.error (uncertain (refused e "smtp send")))
  | .ok .elapsed => .done (.error (uncertain (timedOut "smtp send" SMTP_DATA_TIMEOUT)))
  | .error e => .done (.error e)

/-- The message leaves. -/
def sendBody (data : Octets) (dsn : Bool) : Talk Request Answer Failure Bool :=
  .ask (.body data) fun
    | .ok .positive => .ask .finish (concluded dsn)
    | .ok (.failed e) => .done (.error (uncertain (refused e "smtp send")))
    | .ok .elapsed => .done (.error (uncertain (timedOut "smtp send" SMTP_DATA_TIMEOUT)))
    | .error e => .done (.error e)

/-- `submit`; `valid` are the addresses the library takes. -/
def submit (valid : Str → Bool) (from_ : Str) (recipients : List Str) (raw : Octets) (dsn : Bool) :
    Talk Request Answer Failure Bool :=
  if valid from_ = false then fail ⟨[.context "from address"], .address⟩
  else if recipients.all valid = false then fail ⟨[.context "recipient address"], .address⟩
  else if recipients = [] then fail ⟨[.context "envelope"], .envelope⟩
  else
    match dataBody raw with
    | none => .ask (.whole from_ recipients raw) (concluded false)
    | some data => do
      command "smtp mail from" "smtp MAIL FROM" (.mail from_ (if dsn then dsnMailParameters else []))
      rcptAll dsn recipients
      command "smtp data" "smtp DATA" .data
      sendBody data dsn

/-! ## The server -/

/-- What the server has got. -/
structure Held where
  /-- The recipients it has accepted. -/
  accepted : List Str
  /-- What of the text after DATA has arrived. -/
  received : Octets
  /-- What it has decided about the message. -/
  verdict : Option Bool

def Held.new : Held := ⟨[], [], none⟩

/-- The server does not have the whole message, or has refused it. -/
def NotTaken (h : Held) : Prop := ¬ EndReceived h.received ∨ h.verdict = some false

/-- An answer that says nothing about the request. -/
def Answer.Silent (a : Answer) : Prop := a = .elapsed ∨ a = .failed .broken

/-- What can happen to a request.  A connection can be lost at any octet: what was sent may have arrived, whole or in part, and
been acted on, though no answer to it is read.  A refusal is an explicit negative reply, also one the library's own transaction
ends with. -/
inductive Serve : Held → Request → Except Failure Answer → Held → Prop where
  | mail {s : Held} {sender : Str} {parameters : List Parameter} (a : Answer) : Serve s (.mail sender parameters) (.ok a) s
  | rcptAccepted {s : Held} {recipient : Str} {parameters : List Parameter} {a : Answer} (h : a = .positive ∨ a.Silent) :
      Serve s (.rcpt recipient parameters) (.ok a) { s with accepted := s.accepted ++ [recipient] }
  | rcptNot {s : Held} {recipient : Str} {parameters : List Parameter} {a : Answer} (h : a ≠ .positive) :
      Serve s (.rcpt recipient parameters) (.ok a) s
  | data {s : Held} (a : Answer) : Serve s .data (.ok a) s
  | body {s : Held} {data arrived : Octets} {a : Answer} {verdict : Option Bool} (harrived : arrived <+: data)
      (hverdict : verdict ≠ none → EndReceived arrived) :
      Serve s (.body data) (.ok a) { s with received := arrived, verdict := verdict }
  | accepted {s : Held} {more : Octets} (h : EndReceived (s.received ++ more)) :
      Serve s .finish (.ok .positive) { s with received := s.received ++ more, verdict := some true }
  | refused {s : Held} {more : Octets} {e : SmtpError} (h : isRefusal e = true) :
      Serve s .finish (.ok (.failed e)) { s with received := s.received ++ more, verdict := some false }
  | unheard {s : Held} {more : Octets} {a : Answer} {verdict : Option Bool} (h : a.Silent)
      (hverdict : verdict ≠ none → EndReceived (s.received ++ more)) :
      Serve s .finish (.ok a) { s with received := s.received ++ more, verdict := verdict }
  | whole {s t : Held} {sender : Str} {recipients : List Str} {raw : Octets} {a : Answer}
      (hpositive : a = .positive → t.accepted = recipients ∧ t.verdict = some true)
      (hrefused : ∀ e, a = .failed e → isRefusal e = true → NotTaken t) : Serve s (.whole sender recipients raw) (.ok a) t

/-! ## What a transaction says about the message -/

abbrev Transaction {α : Type} (s : Held) (t : Talk Request Answer Failure α) (moments : List (Moment Held Request Answer Failure))
    (r : Except Failure α) (s' : Held) : Prop := Run Eq Serve s t moments r s'

variable {s s' : Held}

variable {moments : List (Moment Held Request Answer Failure)}

/-- A command before the message says nothing about it, and it goes on after a positive answer only. -/
theorem command_run {what label : String} {q : Request}
    {r : Except Failure Unit} (h : Transaction s (command what label q) moments r s') :
    ∃ a, Serve s q (.ok a) s' ∧ (r = .ok () → a = .positive) := by
  obtain ⟨_, a, _, _, rfl, hserve, -, hrest⟩ := run_ask h
  cases a with
  | error e => cases hserve
  | ok a =>
    cases a with
    | positive =>
      obtain ⟨-, rfl, rfl⟩ := run_done hrest
      exact ⟨_, hserve, fun _ => rfl⟩
    | failed e =>
      obtain ⟨-, rfl, rfl⟩ := run_done hrest
      exact ⟨_, hserve, fun h => by cases h⟩
    | elapsed =>
      obtain ⟨-, rfl, rfl⟩ := run_done hrest
      exact ⟨_, hserve, fun h => by cases h⟩

theorem serve_rcpt {recipient : Str} {parameters : List Parameter} {a : Answer}
    (h : Serve s (.rcpt recipient parameters) (.ok a) s') :
    s'.received = s.received ∧ s'.verdict = s.verdict ∧ (a = .positive → s'.accepted = s.accepted ++ [recipient]) := by
  cases h with
  | rcptAccepted _ => exact ⟨rfl, rfl, fun _ => rfl⟩
  | rcptNot hno => exact ⟨rfl, rfl, fun h => absurd h hno⟩

/-- All recipients are accepted, or nothing has been said of the message. -/
theorem rcptAll_run {dsn : Bool} : ∀ {recipients : List Str} {s s' : Held} {moments : List (Moment Held Request Answer Failure)}
    {r : Except Failure Unit}, Transaction s (rcptAll dsn recipients) moments r s' →
      s'.received = s.received ∧ s'.verdict = s.verdict ∧ (r = .ok () → s'.accepted = s.accepted ++ recipients)
  | [], s, s', moments, r, h => by
    obtain ⟨-, rfl, rfl⟩ := run_done h
    exact ⟨rfl, rfl, fun _ => (append_nil _).symm⟩
  | recipient :: recipients, s, s', moments, r, h => by
    rcases run_bind (fun _ => rfl) h with ⟨e, rfl, hfirst⟩ | ⟨u, mid, first, rest, rfl, hfirst, hrest⟩
    · obtain ⟨a, hserve, -⟩ := command_run hfirst
      obtain ⟨hreceived, hverdict, -⟩ := serve_rcpt hserve
      exact ⟨hreceived, hverdict, fun h => by cases h⟩
    · obtain ⟨a, hserve, ha⟩ := command_run hfirst
      obtain ⟨hreceived, hverdict, haccepted⟩ := serve_rcpt hserve
      obtain ⟨hreceived', hverdict', haccepted'⟩ := rcptAll_run hrest
      refine ⟨hreceived'.trans hreceived, hverdict'.trans hverdict, fun hr => ?_⟩
      rw [haccepted' hr, haccepted (ha rfl), append_assoc]
      rfl

/-- What is said of a message that was sent. -/
structure Says (recipients : List Str) (r : Except Failure Bool) (held : Held) : Prop where
  failed : ∀ e, r = .error e → isUncertain e = false → NotTaken held
  sent : ∀ asked, r = .ok asked → held.accepted = recipients ∧ held.verdict = some true

theorem isUncertain_uncertain (e : Failure) : isUncertain (uncertain e) = true := by
  simp [isUncertain, uncertain]

variable {recipients : List Str}

theorem says_uncertain {e : Failure} {held : Held} : Says recipients (.error (uncertain e)) held :=
  ⟨fun e' he hno => (by
    cases he
    rw [isUncertain_uncertain] at hno
    cases hno), fun asked h => (by cases h)⟩

/-- Before anything of the message has been sent. -/
theorem says_unsent {e : Failure} {held : Held} (h : held.received = []) : Says recipients (.error e) held :=
  ⟨fun _ _ _ => .inl (by rw [h]; exact not_mem_nil), fun asked h => by cases h⟩

/-- What an answer to the end, or to a whole transaction, says. -/
theorem concluded_run {asked : Bool} {q : Request} {a : Except Failure Answer} {r : Except Failure Bool} (hserve : Serve s q a s')
    (hpositive : a = .ok .positive → s'.accepted = recipients ∧ s'.verdict = some true)
    (hrefused : ∀ e, a = .ok (.failed e) → isRefusal e = true → NotTaken s') {final : Held}
    (h : Transaction s' (concluded asked a) moments r final) : Says recipients r final := by
  cases a with
  | error e => cases hserve
  | ok a =>
    cases a with
    | positive =>
      obtain ⟨-, rfl, rfl⟩ := run_done h
      exact ⟨fun e he => (by cases he), fun _ _ => hpositive rfl⟩
    | elapsed =>
      obtain ⟨-, rfl, rfl⟩ := run_done h
      exact says_uncertain
    | failed e =>
      by_cases he : isRefusal e = true
      · rw [concluded, if_pos he] at h
        obtain ⟨-, rfl, rfl⟩ := run_done h
        exact ⟨fun _ _ _ => hrefused e rfl he, fun asked h => by cases h⟩
      · rw [concluded, if_neg he] at h
        obtain ⟨-, rfl, rfl⟩ := run_done h
        exact says_uncertain

theorem sendBody_run {data : Octets} {dsn : Bool} {r : Except Failure Bool}
    (h : Transaction s (sendBody data dsn) moments r s') : Says s.accepted r s' := by
  obtain ⟨_, a, mid, _, rfl, hserve, -, hrest⟩ := run_ask h
  cases hserve with
  | body harrived hverdict =>
    rename_i arrived answer verdict
    cases answer with
    | failed e =>
      obtain ⟨-, rfl, -⟩ := run_done hrest
      exact says_uncertain
    | elapsed =>
      obtain ⟨-, rfl, -⟩ := run_done hrest
      exact says_uncertain
    | positive =>
      obtain ⟨_, a, after, _, rfl, hserve, -, hrest⟩ := run_ask hrest
      refine concluded_run hserve ?_ ?_ hrest
      · rintro rfl
        cases hserve with
        | accepted _ => exact ⟨rfl, rfl⟩
        | unheard hsilent _ => exact absurd hsilent (by simp [Answer.Silent])
      · rintro e rfl he
        cases hserve with
        | refused _ => exact .inr rfl
        | unheard hsilent _ =>
          rcases hsilent with h | h
          · cases h
          · cases h
            cases he

/-- A text with a line that is a dot. -/
def letter : Octets := octets "hi\r\n.\r\nbye"

end Oreneta.Smtp
