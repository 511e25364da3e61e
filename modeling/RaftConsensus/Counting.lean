import RaftConsensus.Commands
import RaftConsensus.Mailboxes
import RaftConsensus.ProgramRuns
import RaftConsensus.TermBounds
import RaftConsensus.Validity

/-!
# What the program does

Every server counts its entries (`program_counts`): its register is the length of its log, as is, at
some time, every result that the client is told. `Calc::parse` never fails, and the file of a server
restores it. The servers differ in how far they have counted.

Only the second server is ever inactive, and when it has handled the four signals of `main` it is
active again (`program_inactive`).

If the agents handle first what `main` sends them, a step ends the program exactly when it delivers
a message that its receiver answers to the empty name: a denied vote, or an `AppendEntry` of an
earlier term to a server that knows no leader (`program_halts_iff`).
-/

set_option autoImplicit false
set_option relaxedAutoImplicit false

namespace RaftConsensus

open TransitionSystem

/-! ### Counting -/

/-- The command of the client adds one. -/
theorem Calc.parse_add_one (c : Calc) : c.parse (bytes "ADD;1") = .ok (c.add 1) := by
  have hdispatch : dispatch (bytes "ADD;1") = .ok (some (.add, 1)) := by decide
  rw [parse_eq_dispatch, hdispatch]
  rfl

/-- The register of a log with the command of the client in every entry is its length. -/
theorem Calc.replay_of_add_one {log : List Entry} (h : ∀ el ∈ log, el.2 = bytes "ADD;1") :
    Calc.replay log = .ok ⟨Int64.ofNat log.length⟩ := by
  induction log using List.reverseRecOn with
  | nil => rfl
  | append_singleton log el ih =>
    have hbefore := ih fun el hel ↦ h el (List.mem_append_left _ hel)
    have hlast := h el (List.mem_append_right _ (List.mem_singleton_self el))
    rw [Calc.replay_append hbefore, List.map_singleton, hlast, parseAll_cons, parse_add_one,
      List.length_append, Int64.ofNat_add]
    rfl

/-- The command of an entry that has been created was requested. -/
theorem Cluster.requested_of_created {m : Membership} {c : Cluster} {trace : History}
    (hrun : Run m initial trace c) {term : ℤ} {cmd : ByteString} (h : Created trace term cmd) :
    ∃ cr : ClientRequest, Requested trace cr ∧ cr.cmd = cmd := by
  obtain ⟨t, ht, name, x, hx, ⟨⟨inbox, rfl⟩, -⟩, -⟩ := h
  obtain ⟨before, after, rfl, hbefore, hstep, -⟩ := hrun.cut_of_mem ht
  obtain ⟨-, havailable, -⟩ := hstep.act hx
  obtain ⟨e, he, -, hmsg⟩ := havailable _ rfl
  exact ⟨_, (requested_run hbefore he hmsg).mono _, rfl⟩

namespace Program

variable {p p' : Program} {a : ProgramAction} {b : Action} {order : List ByteString}
  {trace : History} {past : Cluster.History} {name : ByteString}

/-- The entries of the program have the command of the client. -/
theorem Scripted.command (h : Scripted past p) {el : Entry} (hvalid : Cluster.Valid past el) :
    el.2 = bytes "ADD;1" := by
  obtain ⟨-, hne, hcreated⟩ := hvalid
  obtain ⟨cr, hrequested, hcmd⟩ := Cluster.requested_of_created h.run hcreated
  rw [← hcmd] at hne ⊢
  exact (h.request cr hrequested).resolve_left hne

/-- `Calc::parse` never fails in the program. -/
theorem Scripted.next_ne_parse_error (h : Scripted past p) {cmd : ByteString}
    {fault : ParseFault} :
    p.system.cluster.next fiveServers b ≠ .error (.parse cmd fault) := by
  intro hfault
  obtain ⟨name, x, hx, hparses, register, hparse⟩ := Cluster.next_eq_parse_error hfault
  have henabled : p.system.cluster.next fiveServers b ≠ .error .disabled := by simp [hfault]
  obtain ⟨-, havailable, -⟩ := Cluster.next_of_stimulus hx henabled
  have hcmd : cmd = bytes "ADD;1" := by
    rcases hparses with ⟨ae, haccepts, hcmd⟩ | ⟨⟨inbox, rfl⟩, -, -, hne⟩
    · obtain ⟨el, hel, rfl⟩ := List.mem_map.mp hcmd
      have hcarries := Cluster.carries_of_accepts havailable haccepts
      exact h.command ((Cluster.allValid_run h.run).message ae hcarries el hel)
    · obtain ⟨e, he, -, hmsg⟩ := havailable _ rfl
      exact (h.request _ (Cluster.requested_run h.run he hmsg)).resolve_left hne
  rw [hcmd, Calc.parse_add_one] at hparse
  cases hparse

/-- A step that ends the program is one of a server. -/
theorem Scripted.next_eq_error (h : Scripted past p) {halt : Halt} (hhalt : halt ≠ .disabled)
    (hnext : p.next a = .error halt) :
    ∃ b, a = .agents (.server b) ∧ p.system.cluster.next fiveServers b = .error halt := by
  have hdisabled : ¬ Halt.disabled = halt := fun hsame ↦ hhalt hsame.symm
  unfold next at hnext
  cases a with
  | main =>
    dsimp only at hnext
    split at hnext
    next => exact absurd (Except.error.inj hnext) hdisabled
    next call rest hcalls =>
      simp only [except_bind_eq_error_iff, pure, Except.pure, reduceCtorEq, and_false,
        exists_false, or_false] at hnext
      obtain ⟨b, hcall, hcluster⟩ := h.informed.next_eq_error hhalt hnext
      cases call with
      | client msg => cases hcall
      | server name msg =>
        cases hcall
        exact absurd (Cluster.eq_disabled_of_post hcluster) hhalt
  | agents b =>
    dsimp only at hnext
    split_ifs at hnext with hpost
    · exact absurd (Except.error.inj hnext) hdisabled
    · simp only [except_bind_eq_error_iff, pure, Except.pure, reduceCtorEq, and_false,
        exists_false, or_false] at hnext
      obtain ⟨b', rfl, hcluster⟩ := h.informed.next_eq_error hhalt hnext
      exact ⟨b', rfl, hcluster⟩

end Program

namespace Schedule

/-- `main` makes its calls, and the agents handle the map, and the client its mailbox. -/
def start : List ProgramAction :=
  List.replicate 16 .main ++
    [.agents (.deliver (.setCluster fiveServers.setCluster)),
      .agents (.deliver (.setMBox (some System.clientInbox)))] ++
    fiveServers.names.map fun name ↦ .agents (.server (.deliver name
      ⟨none, none, .server name, .setCluster fiveServers.setCluster⟩))

/-- A follower handles the signal of `main`, and asks for votes when its time limit expires. -/
def askForVotes (name : ByteString) : List Action :=
  [.deliver name ⟨none, none, .server name, .changeState⟩, .internal name .timeLimit] ++
    requestVotes name 0 fiveServers.names

/-- The first server of the five is elected in term `1`. -/
def firstLeader : List Action :=
  let rv : RequestVote := .request 1 (bytes "server1") 0 0
  askForVotes (bytes "server1") ++ vote (bytes "server1") 1 rv ++ vote (bytes "server2") 0 rv ++
    vote (bytes "server3") 0 rv ++ vote (bytes "server4") 0 rv ++ takeOffice (bytes "server1") 0

/-- The client picks the leader at random and sends it a command. -/
def count : List ProgramAction :=
  let cr : ClientRequest := ⟨some System.clientInbox, bytes "ADD;1"⟩
  start ++ firstLeader.map (.agents <| .server ·) ++
    [.agents (.timeLimit 0), .agents (.timeLimit 0), .agents (.timeLimit 0),
      .agents (.server (.deliver (bytes "server1")
        ⟨none, none, .server (bytes "server1"), .clientRequest cr⟩))]

end Schedule

/-- In every run of the program the entries of the logs have the command `ADD;1`, the register of a
server is the number of its entries, and the server is restored from its file as long as its terms
are `int`s. A result that is reported to the client is the number of entries that the log of the
reporting server has had at some time. No step fails in `Calc::parse`. -/
theorem program_counts {order : List ByteString} {trace : Program.History} {p : Program}
    (hrun : Program.Run order trace p) :
    (∀ name, (∀ el ∈ (p.system.cluster.servers name).log, el.2 = bytes "ADD;1") ∧
        (p.system.cluster.servers name).register.result =
          Int64.ofNat (p.system.cluster.servers name).log.length ∧
        ((∀ el ∈ (p.system.cluster.servers name).log, InInt el.1) →
          (p.system.cluster.servers name).Restores)) ∧
      (∀ e ∈ p.system.cluster.network, ∀ sr, e.msg = .serverResponse sr → sr.status = 1 →
        ∃ count ≤ (p.system.cluster.servers sr.leader).log.length,
          sr.resp = toDecimal (Int64.ofNat count).toInt) ∧
      ∀ a cmd fault, p.next a ≠ .error (.parse cmd fault) := by
  obtain ⟨past, hscripted⟩ := Program.scripted_run hrun
  have hlog (name : ByteString) :
      ∀ el ∈ (p.system.cluster.servers name).log, el.2 = bytes "ADD;1" :=
    fun el hel ↦ hscripted.command ((Cluster.allValid_run hscripted.run).log name el hel)
  refine ⟨fun name ↦ ⟨hlog name, ?_, fun hterms ↦ ?_⟩, fun e he sr hmsg hstatus ↦ ?_,
    fun a cmd fault hfault ↦ ?_⟩
  · have hreplay := Cluster.replay_run hscripted.run name
    rw [Calc.replay_of_add_one (hlog name)] at hreplay
    rw [← Except.ok.inj hreplay]
  · refine Cluster.restores hscripted.run fun el hel ↦ ⟨hterms el hel, ?_⟩
    rw [hlog name el hel]
    decide
  · obtain ⟨cr, -, -, -, hreport⟩ := Cluster.reported_run hscripted.run he hmsg
    rcases hreport with ⟨hzero, -⟩ | ⟨-, log, hpast, ⟨register, hreplay, hresp⟩, -⟩
    · simp [hzero] at hstatus
    · rw [Calc.replay_of_add_one fun el hel ↦ hlog _ el (hpast.subset hel)] at hreplay
      refine ⟨log.length, hpast.length_le, ?_⟩
      rw [hresp, ← Except.ok.inj hreplay]
      rfl
  · obtain ⟨b, -, hnext⟩ := hscripted.next_eq_error (by simp) hfault
    exact hscripted.next_ne_parse_error hnext

/-- A leader of the program has counted the one command that it has accepted. -/
theorem program_counts_count :
    let p := finalState Program.next (.initial fiveServers.names) Schedule.count
    let s := p.system.cluster.servers (bytes "server1")
    s.log = [(1, bytes "ADD;1")] ∧ s.register.result = 1 ∧ s.Restores := by
  intro p s
  have hrun : Program.Run fiveServers.names _ p := run_of_isOk (by decide)
  have hlog : s.log = [(1, bytes "ADD;1")] := by decide
  obtain ⟨-, hregister, hrestores⟩ := (program_counts hrun).1 (bytes "server1")
  refine ⟨hlog, hregister.trans ?_, hrestores ?_⟩
  · show Int64.ofNat s.log.length = 1
    rw [hlog]
    rfl
  · show ∀ el ∈ s.log, InInt el.1
    rw [hlog]
    decide

/-! ### The deactivated server -/

/-- In every run of the program a server is inactive exactly when it is the second one, and an odd
number of the four signals is still to be sent or in flight. -/
theorem program_inactive {order : List ByteString} {trace : Program.History} {p : Program}
    (hrun : Program.Run order trace p) (name : ByteString) :
    (p.system.cluster.servers name).role = .inactive ↔ name = bytes "server2" ∧
      Odd (Program.signalsLeft name p.rest +
        Cluster.waiting (Cluster.signals name) p.system.cluster.network) := by
  obtain ⟨past, hscripted⟩ := Program.scripted_run hrun
  have hwaiting := Cluster.waiting_run (Cluster.neverSent_signals name) hscripted.run
  have hsignals := hscripted.signals name
  rw [Cluster.inactive_run hscripted.run name]
  by_cases hsecond : name = bytes "server2"
  · rw [if_pos hsecond] at hsignals
    simp only [hsecond, true_and, Nat.odd_iff] at hwaiting hsignals ⊢
    omega
  · rw [if_neg hsecond] at hsignals
    simp only [hsecond, false_and, iff_false, Nat.not_odd_iff]
    omega

/-- The second server is inactive when it has handled the first signal. -/
theorem program_inactive_count :
    let p := finalState Program.next (.initial fiveServers.names) (Schedule.count ++
      [.agents (.server (.deliver (bytes "server2")
        ⟨none, none, .server (bytes "server2"), .deactivate⟩))])
    (p.system.cluster.servers (bytes "server2")).role = .inactive := by
  intro p
  have hrun : Program.Run fiveServers.names _ p := run_of_isOk (by decide)
  exact (program_inactive hrun _).mpr ⟨rfl, by decide⟩

/-! ### What ends the program -/

namespace Program

variable {p p' : Program} {a : ProgramAction} {b : Action} {order : List ByteString}
  {trace : History} {past : Cluster.History} {name : ByteString}

/-- An agent that acts has handled what `main` sends it first: a server that handles another message
has the map, and the client has its mailbox when its time limit expires. -/
def Prepared (p : Program) : ProgramAction → Prop
  | .agents (.server (.deliver name e)) => Cluster.Introduces name (.deliver name e) = true ∨
      (p.system.cluster.servers name).mboxes.keys ≠ []
  | .agents (.timeLimit _) => p.system.client.mbox ≠ none
  | .agents (.server (.post _ _)) | .agents (.server (.internal _ _)) | .agents (.post _)
  | .agents (.deliver _) | .agents (.respond _) | .main => True

instance : (a : ProgramAction) → Decidable (p.Prepared a)
  | .agents (.server (.deliver _ _)) => inferInstanceAs (Decidable (_ ∨ _))
  | .agents (.timeLimit _) => inferInstanceAs (Decidable (_ ≠ _))
  | .agents (.server (.post _ _)) | .agents (.server (.internal _ _)) | .agents (.post _)
  | .agents (.deliver _) | .agents (.respond _) | .main => .isTrue trivial

/-- What follows for the run of the cluster: the servers are introduced, and every request has a
mailbox. -/
structure Addressed (past : Cluster.History) (p : Program) : Prop where
  introduced : Cluster.Introduced fiveServers past p.system.cluster
  request : ∀ cr, Cluster.Requested past cr → cr.inbox ≠ none

/-- A prepared step delivers nothing else to a server before the map. -/
theorem Addressed.informedFirst (h : Addressed past p) {b : Action}
    (hprepared : p.Prepared (.agents (.server b))) : Cluster.InformedFirst past b := by
  cases b with
  | post | internal => trivial
  | deliver name e =>
    rcases hprepared with hmap | hkeys
    · exact Or.inl hmap
    · right
      by_contra hfresh
      rw [h.introduced.fresh name hfresh] at hkeys
      exact hkeys rfl

/-- A prepared step keeps the messages addressed. -/
theorem Addressed.advance (h : Addressed past p) (hscripted : Scripted past p)
    (hadvances : Advances p a p' b) (hprepared : p.Prepared a) :
    Addressed (past ++ [⟨p.system.cluster, b, p'.system.cluster⟩]) p' where
  introduced := by
    refine h.introduced.step hscripted.run hadvances.step ?_
    cases b with
    | post | internal => trivial
    | deliver name e =>
      obtain rfl := hadvances.delivery name e rfl
      exact h.informedFirst hprepared
  request cr := by
    rintro ⟨t, ht, receiver, hpost⟩
    rcases List.mem_append.mp ht with hold | hnew
    · exact h.request cr ⟨t, hold, receiver, hpost⟩
    · obtain rfl := List.mem_singleton.mp hnew
      obtain ⟨⟨idx, rfl⟩, hinbox, -⟩ := hadvances.request receiver cr hpost
      rw [hinbox]
      exact hprepared

/-- In a run with prepared steps the messages are addressed. -/
theorem addressed_run (hrun : Run order trace p)
    (hprepared : ∀ t ∈ trace, t.source.Prepared t.action) :
    ∃ past, Scripted past p ∧ Addressed past p := by
  induction hrun with
  | nil =>
    exact ⟨[], scripted_initial order, Cluster.introduced_initial, by simp [Cluster.Requested]⟩
  | snoc _ hstep ih =>
    obtain ⟨past, hscripted, haddressed⟩ :=
      ih fun t ht ↦ hprepared t (List.mem_append_left _ ht)
    have hlast := hprepared _ (List.mem_append_right _ (List.mem_singleton_self _))
    rcases advances_or_stays hscripted.informed hscripted.requestless hstep with
      ⟨b, hadvances⟩ | hstays
    · exact ⟨_, hscripted.advance hstep hadvances, haddressed.advance hscripted hadvances hlast⟩
    · exact ⟨past, hscripted.stay hstep hstays, hstays.cluster ▸ haddressed.introduced,
        haddressed.request⟩

end Program

/-- A message that is delivered is in flight to a member, whose agent is idle. -/
theorem Cluster.deliverable_of_enabled {m : Membership} {c : Cluster} {name : ByteString}
    {e : Envelope} (henabled : c.next m (.deliver name e) ≠ .error .disabled) :
    (name ∈ m.names ∧ e ∈ c.network ∧ e.dst = .server name) ∧
      (c.servers name).agent = .idle := by
  have hdeliverable : name ∈ m.names ∧ e ∈ c.network ∧ e.dst = .server name := by
    by_contra hno
    exact henabled (if_neg hno)
  obtain ⟨-, -, hnext⟩ := next_of_stimulus rfl henabled
  refine ⟨hdeliverable, ?_⟩
  by_contra hbusy
  exact henabled ((hnext _).mpr (if_neg hbusy))

/-- The delivery of a misaddressed message to an idle server ends in a send to nobody. -/
theorem Cluster.Coherent.next_eq_emptyMailbox {m : Membership} {c : Cluster} (h : Coherent m c)
    {name : ByteString} {e : Envelope}
    (hdeliverable : name ∈ m.names ∧ e ∈ c.network ∧ e.dst = .server name)
    (hidle : (c.servers name).agent = .idle) (hwrong : (c.servers name).Misaddresses e.msg) :
    c.next m (.deliver name e) = .error .emptyMailbox := by
  have hnobody : ((c.servers name).mboxes.get []).mbox = none := by
    by_contra hsome
    obtain ⟨mbox, hmbox⟩ := Option.ne_none_iff_exists'.mp hsome
    exact m.nonempty (h.mailbox name [] mbox hmbox).1
  have hrequest (cr : ClientRequest) : Stimulus.handle e.msg ≠ .handle (.clientRequest cr) := by
    intro hcr
    rw [Stimulus.handle.inj hcr] at hwrong
    exact hwrong
  have hact := (Server.act_emptyMailbox_iff hrequest).mpr
    ⟨[], Server.addressee_of_misaddresses hidle hwrong, hnobody⟩
  rw [next, if_pos hdeliverable]
  exact actOn_eq_error_iff.mpr hact

/-- A request with a mailbox does not make a server send to an empty mailbox. -/
theorem Server.act_clientRequest_ne_emptyMailbox {s : Server} {cr : ClientRequest}
    (hinbox : cr.inbox ≠ none) : s.act (.handle (.clientRequest cr)) ≠ .error .emptyMailbox := by
  obtain ⟨mbox, hmbox⟩ := Option.ne_none_iff_exists'.mp hinbox
  have haccept : s.acceptCommand cr.cmd ≠ .error .emptyMailbox := by
    unfold acceptCommand
    split_ifs
    · cases s.register.parse cr.cmd <;> simp
    · simp
  unfold act
  dsimp only
  split_ifs with hidle
  · unfold handle
    dsimp only
    cases s.role with
    | leader =>
      simp [leaderClientRequestHandler, except_bind_eq_error_iff, haccept, hmbox, send, pure,
        Except.pure]
    | follower =>
      simp [followerClientRequestHandler, except_bind_eq_error_iff, hmbox, send, pure, Except.pure]
    | candidate | inactive => simp
  · simp

/-- If the agents handle first what `main` sends them, a step ends the program exactly when it
delivers a message to an idle server that answers it to the empty name: a denied vote to a candidate
or a follower, or a stale `AppendEntry` to a server that knows no leader. -/
theorem program_halts_iff {order : List ByteString} {trace : Program.History} {p : Program}
    (hrun : Program.Run order trace p) (hprepared : ∀ t ∈ trace, t.source.Prepared t.action)
    {a : ProgramAction} (ha : p.Prepared a) :
    (∃ halt, halt ≠ .disabled ∧ p.next a = .error halt) ↔
      ∃ name e, a = .agents (.server (.deliver name e)) ∧ name ∈ fiveServers.names ∧
        e ∈ p.system.cluster.network ∧ e.dst = .server name ∧
        (p.system.cluster.servers name).agent = .idle ∧
        (p.system.cluster.servers name).Misaddresses e.msg := by
  obtain ⟨past, hscripted, haddressed⟩ := Program.addressed_run hrun hprepared
  constructor
  · rintro ⟨halt, hhalt, hends⟩
    obtain ⟨b, rfl, hnext⟩ := hscripted.next_eq_error hhalt hends
    have henabled : p.system.cluster.next fiveServers b ≠ .error .disabled := by
      simp [hnext, hhalt]
    obtain rfl : halt = .emptyMailbox := by
      cases halt with
      | disabled => exact absurd rfl hhalt
      | emptyMailbox => rfl
      | parse cmd fault => exact absurd hnext hscripted.next_ne_parse_error
    by_cases hwrong : Cluster.Misaddressed p.system.cluster b
    · cases b with
      | post | internal => exact hwrong.elim
      | deliver name e =>
        obtain ⟨⟨hname, he, hdst⟩, hidle⟩ := Cluster.deliverable_of_enabled henabled
        exact ⟨name, e, rfl, hname, he, hdst, hidle, hwrong⟩
    · obtain ⟨name, e, cr, rfl, hmsg⟩ := haddressed.introduced.request_of_emptyMailbox
        hscripted.run (haddressed.informedFirst ha) hwrong hnext
      obtain ⟨-, havailable, hact⟩ := Cluster.next_of_stimulus rfl henabled
      obtain ⟨e', he', -, hmsg'⟩ := havailable _ rfl
      rw [hmsg] at hmsg' hact
      have hrequested := Cluster.requested_run hscripted.run he' hmsg'
      exact absurd ((hact _).mp hnext)
        (Server.act_clientRequest_ne_emptyMailbox (haddressed.request cr hrequested))
  · rintro ⟨name, e, rfl, hname, he, hdst, hidle, hmisaddresses⟩
    have hfails := (Cluster.coherent_initial.run hscripted.run).next_eq_emptyMailbox
      ⟨hname, he, hdst⟩ hidle hmisaddresses
    refine ⟨.emptyMailbox, by simp, ?_⟩
    simp [Program.next, System.next, SystemAction.isPost, System.Foreign, hfails, bind,
      Except.bind]

/-- The first leader of the five is a candidate in term `2`, when the third server asks it for its
vote in term `1`. -/
def Schedule.refusal : List ProgramAction :=
  let rv : RequestVote := .request 1 (bytes "server3") 0 0
  let again : List Action := [.internal (bytes "server1") .timeLimit,
    .internal (bytes "server1") (.heartbeatStep 0), .internal (bytes "server1") (.heartbeatStep 0),
    .internal (bytes "server1") .resume, .internal (bytes "server1") .resume,
    .internal (bytes "server1") .timeLimit]
  let denied : List Action := [.deliver (bytes "server1")
    ⟨some (bytes "server3"), none, .server (bytes "server1"), .requestVote rv⟩]
  start ++ (firstLeader ++ again ++ askForVotes (bytes "server3") ++ denied).map
    (.agents <| .server ·)

/-- The candidate that handles the denied vote ends the program. -/
theorem program_halts_iff_refusal :
    let p := finalState Program.next (.initial fiveServers.names) Schedule.refusal
    let e : Envelope := ⟨some (bytes "server1"),
      some (.requestVote (.request 1 (bytes "server3") 0 0)), .server (bytes "server3"),
      .requestVote (.answer 2 false)⟩
    ∃ halt, halt ≠ .disabled ∧
      p.next (.agents (.server (.deliver (bytes "server3") e))) = .error halt := by
  intro p e
  have hrun : Program.Run fiveServers.names
      (history Program.next (.initial fiveServers.names) Schedule.refusal) p :=
    run_of_isOk (by decide)
  exact (program_halts_iff hrun (by decide) (by decide)).mpr
    ⟨bytes "server3", e, rfl, by decide, by decide, rfl, by decide, by decide⟩

end RaftConsensus
