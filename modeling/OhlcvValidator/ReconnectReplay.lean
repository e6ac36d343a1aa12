import OhlcvValidator.AlpacaClient

namespace OhlcvValidator

namespace Ingest

variable {config : AlpacaConfig} {symbols : List (List UInt8)} {outcomes : List Outcome}
  {c : AlpacaClient} {k : Connection}

/-- The very first read, of the server's welcome, failed. -/
def WelcomeFailed (outcomes : List Outcome) : Prop :=
  outcomes[1]? = some .failed

instance (outcomes : List Outcome) : Decidable (WelcomeFailed outcomes) :=
  inferInstanceAs (Decidable (_ = _))

theorem WelcomeFailed.concat (h : WelcomeFailed outcomes) (o : Outcome) :
    WelcomeFailed (outcomes ++ [o]) := by
  have hlt := (List.getElem?_eq_some_iff.mp h).1
  rw [WelcomeFailed, List.getElem?_append_left hlt]
  exact h

def AlpacaConfig.authMessage (config : AlpacaConfig) : ClientMessage :=
  .auth config.keyId config.secretKey

/-- What `main` has the client write before it comes to a statement. -/
def MainStep.sent (config : AlpacaConfig) (symbols : List (List UInt8)) :
    MainStep → List ClientMessage
  | .connect | .readWelcome | .authenticate => []
  | .readAuth | .subscribe => [config.authMessage]
  | .readSubscription | .readLoop => [config.authMessage, .subscribe symbols symbols symbols]

/-- Whether `main` has called `subscribe` before it comes to a statement. -/
def MainStep.subscribed : MainStep → Bool
  | .readSubscription | .readLoop => true
  | _ => false

/-- A stream carries what it should, or one more `auth` before it if the welcome failed. -/
def Carries (config : AlpacaConfig) (outcomes : List Outcome) (k : Connection)
    (sent : List ClientMessage) : Prop :=
  k.sent = sent ∨ WelcomeFailed outcomes ∧ k.sent = config.authMessage :: sent

theorem Carries.concat {sent : List ClientMessage} (h : Carries config outcomes k sent)
    (o : Outcome) : Carries config (outcomes ++ [o]) k sent :=
  h.imp_right fun hw => ⟨hw.1.concat o, hw.2⟩

theorem Carries.write {sent : List ClientMessage} (h : Carries config outcomes k sent)
    (msg : ClientMessage) :
    Carries config outcomes { k with sent := k.sent ++ [msg] } (sent ++ [msg]) := by
  rcases h with h | ⟨hw, h⟩
  · exact Or.inl (by rw [h])
  · exact Or.inr ⟨hw, by rw [h, List.cons_append]⟩

/-- The client's fields at a statement of `main` or below it. -/
structure Remembers (config : AlpacaConfig) (symbols : List (List UInt8)) (step : MainStep)
    (c : AlpacaClient) : Prop where
  config_eq : c.config = config
  subscribed_eq : c.subscribed = step.subscribed
  lists_eq : step.subscribed = true →
    c.subTrades = symbols ∧ c.subQuotes = symbols ∧ c.subBars = symbols

/-- Every stream that the ingest loop got a frame from carries a whole session. -/
def Served (config : AlpacaConfig) (symbols : List (List UInt8)) (outcomes : List Outcome)
    (c : AlpacaClient) : Prop :=
  ∀ k ∈ c.connections, k.frames ≠ [] →
    Carries config outcomes k (MainStep.readLoop.sent config symbols)

/-- At a statement of `main` after the first: the current stream carries what `main` has had
written so far, and only the loop has taken frames from it. -/
structure OnStream (config : AlpacaConfig) (symbols : List (List UInt8))
    (outcomes : List Outcome) (step : MainStep) (c : AlpacaClient) : Prop where
  remembers : Remembers config symbols step c
  stream : ∃ k, c.ws = some k ∧ Carries config outcomes k (step.sent config symbols) ∧
    (step ≠ .readLoop → k.frames = [])
  welcome : step = .readWelcome → outcomes.length = 1 ∨ WelcomeFailed outcomes

/-- Inside the `establish` of a failed read. -/
structure InEstablish (config : AlpacaConfig) (symbols : List (List UInt8))
    (outcomes : List Outcome) (reader : MainStep) (c : AlpacaClient) : Prop where
  remembers : Remembers config symbols reader c
  reads : reader = .readWelcome ∧ WelcomeFailed outcomes ∨ reader = .readAuth ∨
    reader.subscribed = true

/-- What is known of the current stream at each point of the program. -/
def AtPhase (config : AlpacaConfig) (symbols : List (List UInt8)) (outcomes : List Outcome)
    (c : AlpacaClient) : Phase → Prop
  | .main .connect => outcomes = [] ∧ c.ws = none ∧ Remembers config symbols .connect c
  | .main step => OnStream config symbols outcomes step c
  | .establishing reader .connect => InEstablish config symbols outcomes reader c
  | .establishing reader .authenticate => InEstablish config symbols outcomes reader c ∧
      c.ws = some {}
  | .establishing reader .subscribe => InEstablish config symbols outcomes reader c ∧
      c.ws = some { sent := [config.authMessage] } ∧ reader.subscribed = true
  | .fatal => True

structure Follows (config : AlpacaConfig) (symbols : List (List UInt8)) (outcomes : List Outcome)
    (s : AlpacaClient × Phase) : Prop where
  served : Served config symbols outcomes s.1
  phase : AtPhase config symbols outcomes s.1 s.2

theorem Served.concat (h : Served config symbols outcomes c) (o : Outcome) :
    Served config symbols (outcomes ++ [o]) c :=
  fun k hk hf => (h k hk hf).concat o

theorem Served.connect (h : Served config symbols outcomes c) :
    Served config symbols outcomes c.connect := by
  intro k hk hf
  rcases List.mem_append.mp hk with hk | hk
  · exact h k hk hf
  · obtain rfl := List.mem_singleton.mp hk
    exact absurd rfl hf

/-- Changing the current stream keeps the others. -/
theorem Served.current (h : Served config symbols outcomes c) {ws : Option Connection}
    (hws : ∀ k ∈ ws, k.frames ≠ [] →
      Carries config outcomes k (MainStep.readLoop.sent config symbols)) :
    Served config symbols outcomes { c with ws := ws } := by
  intro k hk hf
  rcases List.mem_append.mp hk with hk | hk
  · exact h k (List.mem_append_left _ hk) hf
  · exact hws k (by simpa using hk) hf

theorem Served.unread (h : Served config symbols outcomes c) (sent : List ClientMessage) :
    Served config symbols outcomes { c with ws := some { sent := sent } } :=
  h.current (by rintro k ⟨⟩ hf; exact absurd rfl hf)

theorem InEstablish.concat {reader : MainStep} (h : InEstablish config symbols outcomes reader c)
    (o : Outcome) : InEstablish config symbols (outcomes ++ [o]) reader c :=
  ⟨h.remembers, h.reads.imp_left fun hw => ⟨hw.1, hw.2.concat o⟩⟩

theorem MainStep.sent_of_subscribed {step : MainStep} (h : step.subscribed = true) :
    step.sent config symbols = [config.authMessage, .subscribe symbols symbols symbols] := by
  cases step <;> first | rfl | cases h

theorem OnStream.atPhase {step : MainStep} (h : OnStream config symbols outcomes step c)
    (hne : step ≠ .connect) : AtPhase config symbols outcomes c (.main step) := by
  cases step <;> first | exact h | exact absurd rfl hne

/-- Back from `establish`, the new stream carries what `main` has had written, unless `main`
had not come to its own `auth` yet. -/
theorem InEstablish.onStream {reader : MainStep} (h : InEstablish config symbols outcomes reader c)
    {sent : List ClientMessage} (hws : c.ws = some { sent := sent })
    (hsent : reader.subscribed = false → sent = [config.authMessage])
    (hsub : reader.subscribed = true → sent = reader.sent config symbols) :
    AtPhase config symbols outcomes c (.main reader) := by
  rcases h.reads with ⟨rfl, hw⟩ | rfl | hreader
  · exact ⟨h.remembers, ⟨_, hws, Or.inr ⟨hw, hsent rfl⟩, fun _ => rfl⟩, fun _ => Or.inr hw⟩
  · exact ⟨h.remembers, ⟨_, hws, Or.inl (hsent rfl), fun _ => rfl⟩, fun he => by cases he⟩
  · refine OnStream.atPhase ⟨h.remembers, ⟨_, hws, Or.inl (hsub hreader), fun _ => rfl⟩, ?_⟩ ?_
    · rintro rfl
      cases hreader
    · rintro rfl
      cases hreader

theorem InEstablish.keeps {reader : MainStep} (h : InEstablish config symbols outcomes reader c)
    (ws : Option Connection) (replaced : List Connection) :
    InEstablish config symbols outcomes reader { c with ws := ws, replaced := replaced } :=
  ⟨⟨h.remembers.config_eq, h.remembers.subscribed_eq, h.remembers.lists_eq⟩, h.reads⟩

theorem follows_establishStep {reader : MainStep} {step : EstablishStep} (o : Outcome)
    (hserved : Served config symbols outcomes c)
    (hphase : AtPhase config symbols outcomes c (.establishing reader step)) :
    Follows config symbols (outcomes ++ [o]) (establishStep c reader step o) := by
  have hserved := hserved.concat o
  cases step with
  | connect =>
    have hin : InEstablish config symbols outcomes reader c := hphase
    have hin' := (hin.concat o).keeps (some {}) c.connections
    cases o with
    | done payload => exact ⟨hserved.connect, hin', rfl⟩
    | failed => exact ⟨hserved.connect, hin'⟩
  | authenticate =>
    obtain ⟨hin, hws⟩ := hphase
    cases o with
    | failed => exact ⟨hserved, hin.concat _⟩
    | done payload =>
      have hauth : c.authenticate = { c with ws := some { sent := [config.authMessage] } } := by
        simp [AlpacaClient.authenticate, AlpacaClient.write, hws, hin.remembers.config_eq,
          AlpacaConfig.authMessage]
      have hin' := (hin.concat (.done payload)).keeps (some { sent := [config.authMessage] })
        c.replaced
      have hserved' := hserved.unread [config.authMessage]
      simp only [establishStep, hauth]
      cases hreader : reader.subscribed with
      | true =>
        rw [if_pos (hin.remembers.subscribed_eq.trans hreader)]
        exact ⟨hserved', hin', rfl, hreader⟩
      | false =>
        rw [if_neg (by rw [hin.remembers.subscribed_eq, hreader]; exact Bool.false_ne_true)]
        exact ⟨hserved', hin'.onStream rfl (fun _ => rfl) fun hr => by rw [hreader] at hr; cases hr⟩
  | subscribe =>
    obtain ⟨hin, hws, hreader⟩ := hphase
    cases o with
    | failed => exact ⟨hserved, hin.concat _⟩
    | done payload =>
      obtain ⟨htrades, hquotes, hbars⟩ := hin.remembers.lists_eq hreader
      have hsend : c.sendSubscribe c.subTrades c.subQuotes c.subBars =
          { c with ws := some ⟨[config.authMessage, .subscribe symbols symbols symbols], []⟩ } := by
        simp [AlpacaClient.sendSubscribe, AlpacaClient.write, hws, htrades, hquotes, hbars]
      have hin' := (hin.concat (.done payload)).keeps
        (some ⟨[config.authMessage, .subscribe symbols symbols symbols], []⟩) c.replaced
      simp only [establishStep, hsend]
      refine ⟨hserved.unread _, hin'.onStream rfl (fun hr => ?_)
        fun hr => (MainStep.sent_of_subscribed hr).symm⟩
      rw [hreader] at hr
      cases hr

/-- A read leaves the stream as it is, but for a frame that the loop gets. -/
theorem follows_readFrame {reader next : MainStep} (o : Outcome)
    (hserved : Served config symbols outcomes c) (h : OnStream config symbols outcomes reader c)
    (hreads : reader = .readWelcome ∨ reader = .readAuth ∨ reader.subscribed = true)
    (hsent : next.sent config symbols = reader.sent config symbols)
    (hsub : next.subscribed = reader.subscribed) (hnext : next ≠ .connect ∧ next ≠ .readWelcome)
    (hloop : reader = .readLoop → next = .readLoop) :
    Follows config symbols (outcomes ++ [o]) (readFrame c reader next o) := by
  obtain ⟨hrem, ⟨k, hws, hcarries, hframes⟩, hwelcome⟩ := h
  have hserved := hserved.concat o
  have hcarries := hcarries.concat o
  have hrem' : Remembers config symbols next c :=
    ⟨hrem.config_eq, hrem.subscribed_eq.trans hsub.symm, fun hn => hrem.lists_eq (hsub ▸ hn)⟩
  cases o with
  | failed =>
    simp only [readFrame]
    split
    next =>
      refine ⟨hserved, hrem, ?_⟩
      rcases hreads with rfl | hreads
      · refine Or.inl ⟨rfl, ?_⟩
        rcases hwelcome rfl with hone | hw
        · rw [WelcomeFailed, List.getElem?_append_right hone.le, hone]
          rfl
        · exact hw.concat _
      · exact Or.inr hreads
    next => exact ⟨hserved, trivial⟩
  | done payload =>
    simp only [readFrame]
    split
    next hr =>
      subst hr
      obtain rfl := hloop rfl
      have hret : c.returned payload =
          { c with ws := some { k with frames := k.frames ++ [payload] } } := by
        simp [AlpacaClient.returned, hws]
      rw [hret]
      refine ⟨hserved.current ?_, ⟨⟨hrem.config_eq, hrem.subscribed_eq, hrem.lists_eq⟩,
        ⟨_, rfl, hcarries, fun hne => absurd rfl hne⟩, fun he => by cases he⟩⟩
      rintro _ ⟨⟩ _
      exact hcarries
    next hr =>
      exact ⟨hserved, OnStream.atPhase ⟨hrem', ⟨k, hws, hsent ▸ hcarries, fun _ => hframes hr⟩,
        fun he => absurd he hnext.2⟩ hnext.1⟩

/-- A message that `main` writes goes on the current stream, which the loop has not read yet. -/
theorem OnStream.write {step next : MainStep} {c' : AlpacaClient} {msg : ClientMessage}
    (h : OnStream config symbols outcomes step c) (o : Outcome)
    (hserved : Served config symbols outcomes c) (hstep : step ≠ .readLoop)
    (hws' : c'.ws = c.ws) (hreplaced : c'.replaced = c.replaced)
    (hrem : Remembers config symbols next c')
    (hsent : next.sent config symbols = step.sent config symbols ++ [msg])
    (hnext : next ≠ .connect ∧ next ≠ .readWelcome) :
    Follows config symbols (outcomes ++ [o]) (c'.write msg, .main next) := by
  obtain ⟨k, hws, hcarries, hframes⟩ := h.stream
  have hframes := hframes hstep
  have hwrite : (c'.write msg).ws = some { k with sent := k.sent ++ [msg] } := by
    simp [AlpacaClient.write, hws', hws]
  refine ⟨?_, OnStream.atPhase ⟨⟨hrem.config_eq, hrem.subscribed_eq, hrem.lists_eq⟩,
    ⟨_, hwrite, hsent ▸ (hcarries.concat o).write msg, fun _ => hframes⟩,
    fun he => absurd he hnext.2⟩ hnext.1⟩
  intro k' hk' hf
  rcases List.mem_append.mp hk' with hk' | hk'
  · exact hserved.concat o k' (List.mem_append_left _ (hreplaced ▸ hk')) hf
  · rw [hwrite] at hk'
    obtain rfl := List.mem_singleton.mp hk'
    exact absurd hframes hf

theorem follows_mainStep {step : MainStep} (o : Outcome)
    (hserved : Served config symbols outcomes c)
    (hphase : AtPhase config symbols outcomes c (.main step)) :
    Follows config symbols (outcomes ++ [o]) (mainStep symbols c step o) := by
  cases step with
  | connect =>
    obtain ⟨rfl, hws, hrem⟩ := hphase
    have hserved := (hserved.concat o).connect
    cases o with
    | failed => exact ⟨hserved, trivial⟩
    | done payload =>
      exact ⟨hserved, ⟨⟨hrem.config_eq, hrem.subscribed_eq, hrem.lists_eq⟩,
        ⟨_, rfl, Or.inl rfl, fun _ => rfl⟩, fun _ => Or.inl rfl⟩⟩
  | readWelcome =>
    exact follows_readFrame o hserved hphase (Or.inl rfl) rfl rfl (by decide) (by decide)
  | authenticate =>
    have hon : OnStream config symbols outcomes .authenticate c := hphase
    have hrem := hon.remembers
    cases o with
    | failed => exact ⟨hserved.concat _, trivial⟩
    | done payload =>
      refine hon.write _ hserved (by decide) rfl rfl
        ⟨hrem.config_eq, hrem.subscribed_eq, hrem.lists_eq⟩ ?_ (by decide)
      rw [hrem.config_eq]
      rfl
  | readAuth =>
    exact follows_readFrame o hserved hphase (Or.inr (Or.inl rfl)) rfl rfl (by decide) (by decide)
  | subscribe =>
    have hon : OnStream config symbols outcomes .subscribe c := hphase
    cases o with
    | failed => exact ⟨hserved.concat _, trivial⟩
    | done payload =>
      have hrem : Remembers config symbols .readSubscription (c.remember symbols symbols symbols) :=
        ⟨hon.remembers.config_eq, rfl, fun _ => ⟨rfl, rfl, rfl⟩⟩
      exact hon.write _ hserved (by decide) rfl rfl hrem rfl (by decide)
  | readSubscription =>
    exact follows_readFrame o hserved hphase (Or.inr (Or.inr rfl)) rfl rfl (by decide) (by decide)
  | readLoop =>
    exact follows_readFrame o hserved hphase (Or.inr (Or.inr rfl)) rfl rfl (by decide) (by decide)

theorem follows_ingest (config : AlpacaConfig) (symbols : List (List UInt8))
    (outcomes : List Outcome) :
    Follows config symbols outcomes (ingest config symbols outcomes) := by
  induction outcomes using List.reverseRecOn with
  | nil => exact ⟨fun _ hk => absurd hk List.not_mem_nil, rfl, rfl, rfl, rfl, fun h => by cases h⟩
  | append_singleton outcomes o ih =>
    rw [ingest, List.foldl_append]
    change Follows config symbols _ (ingestStep symbols (ingest config symbols outcomes) o)
    obtain ⟨hserved, hphase⟩ := ih
    unfold ingestStep
    split
    next step he =>
      rw [he] at hphase
      exact follows_mainStep o hserved hphase
    next reader step he =>
      rw [he] at hphase
      exact follows_establishStep o hserved hphase
    next he => exact ⟨hserved.concat o, by rw [he]; trivial⟩

/-- However reads fail and whatever throws inside `establish`, each stream that the ingest loop
gets a frame from carries one `auth` and one `subscribe` with the last lists, as long as the read
of the welcome does not fail: `establish` authenticates then, and so does `main` after it. -/
theorem reconnect_replays_session (config : AlpacaConfig) (symbols : List (List UInt8))
    {outcomes : List Outcome} (hwelcome : ¬WelcomeFailed outcomes) :
    ∀ k ∈ (ingest config symbols outcomes).1.connections, k.frames ≠ [] →
      k.sent = [.auth config.keyId config.secretKey, .subscribe symbols symbols symbols] := by
  intro k hk hf
  exact ((follows_ingest config symbols outcomes).served k hk hf).resolve_right fun hw =>
    hwelcome hw.1

/-- The read of the subscription's answer fails, `establish` fails to authenticate once, and the
loop gets two frames. -/
def dropAfterSubscribe : List Outcome :=
  [.done [], .done [1], .done [], .done [2], .done [], .failed, .done [], .failed, .done [],
    .done [], .done [], .done [3], .done [4], .done [5]]

theorem reconnect_replays_session_dropAfterSubscribe :
    (ingest ⟨[75], [83], true⟩ [[65]] dropAfterSubscribe).1.connections.map (·.frames) =
        [[], [], [[4], [5]]] ∧
      ∀ k ∈ (ingest ⟨[75], [83], true⟩ [[65]] dropAfterSubscribe).1.connections, k.frames ≠ [] →
        k.sent = [.auth [75] [83], .subscribe [[65]] [[65]] [[65]]] :=
  ⟨by decide, reconnect_replays_session ⟨[75], [83], true⟩ [[65]] (by decide)⟩

/-- The first read fails and everything after it succeeds: on the stream that the loop reads,
the client has authenticated twice. -/
theorem reconnect_authenticates_twice :
    (ingest ⟨[75], [83], true⟩ [[65]]
      [.done [], .failed, .done [], .done [], .done [1], .done [], .done [2], .done [], .done [3],
        .done [4]]).1.connections =
      [{}, { sent := [.auth [75] [83], .auth [75] [83], .subscribe [[65]] [[65]] [[65]]],
             frames := [[4]] }] := by
  decide

end Ingest

end OhlcvValidator
