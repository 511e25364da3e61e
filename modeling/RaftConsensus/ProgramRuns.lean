import RaftConsensus.Model.Main
import RaftConsensus.Responses

/-!
# Runs of the program

In the program the only requests are those of its client: they have no command, or the command
`ADD;1`. With a step of the program the cluster takes a step or stays as it is
(`Program.advances_or_stays`), and a run of the program is a run of the cluster in which the client
posts the requests and the script of `main` the signals (`Program.scripted_run`). So what holds of
all runs of the cluster holds in the program, with these requests and signals.

The client itself cannot end the program: it looks up servers that its map has
(`System.Informed.timeLimit_ne_error`). So a step that ends the program is one of a server
(`System.Informed.next_eq_error`).
-/

set_option autoImplicit false
set_option relaxedAutoImplicit false

namespace RaftConsensus

open TransitionSystem

/-! ### The requests of the client -/

/-- What the client sends are requests with its mailbox and without a command, or with `ADD;1`. -/
theorem Client.request_of_timeLimit {c c' : Client} {idx : ℕ} {out : List Output}
    (h : c.timeLimit idx = .ok (c', out)) {o : Output} (ho : o ∈ out) :
    ∃ cr : ClientRequest, o.2 = .clientRequest cr ∧ cr.inbox = c.mbox ∧
      (cr.cmd = [] ∨ cr.cmd = bytes "ADD;1") := by
  unfold timeLimit enterOn at h
  split at h
  · split_ifs at h with hunknown hknown
    · split at h
      next el hel =>
        simp only [except_bind_eq_ok_iff, send_eq_ok_iff, pure, Except.pure, Except.ok.injEq,
          Prod.mk.injEq] at h
        obtain ⟨_, ⟨mbox, -, rfl⟩, -, rfl⟩ := h
        obtain rfl := List.mem_singleton.mp ho
        exact ⟨_, rfl, rfl, Or.inl rfl⟩
      next =>
        obtain ⟨-, rfl⟩ := Prod.mk.inj (Except.ok.inj h)
        simp at ho
    · simp only [except_bind_eq_ok_iff, send_eq_ok_iff, pure, Except.pure, Except.ok.injEq,
        Prod.mk.injEq] at h
      obtain ⟨_, ⟨mbox, -, rfl⟩, -, rfl⟩ := h
      obtain rfl := List.mem_singleton.mp ho
      exact ⟨_, rfl, rfl, Or.inr rfl⟩
    · obtain ⟨-, rfl⟩ := Prod.mk.inj (Except.ok.inj h)
      simp at ho
  · obtain ⟨-, rfl⟩ := Prod.mk.inj (Except.ok.inj h)
    simp at ho

/-- An informed client sends to no empty mailbox when its time limit expires. -/
theorem System.Informed.timeLimit_ne_error {m : Membership} {sys : System} (h : Informed m sys)
    (idx : ℕ) (halt : Halt) : sys.client.timeLimit idx ≠ .error halt := by
  intro hlimit
  have hmbox : ∀ el ∈ sys.client.mboxes, ∃ mbox, el.2 = some mbox := by
    intro el hel
    rcases h.map with hnone | hmap
    · simp [hnone] at hel
    · rw [hmap] at hel
      exact ⟨_, (Membership.mem_setCluster.mp hel).2⟩
  unfold Client.timeLimit Client.enterOn at hlimit
  split at hlimit
  · split_ifs at hlimit with hunknown hknown
    · split at hlimit
      next el hel =>
        obtain ⟨mbox, hmbox⟩ := hmbox el (List.mem_of_getElem? hel)
        simp [hmbox, send, bind, Except.bind, pure, Except.pure] at hlimit
      next => cases hlimit
    · obtain ⟨el, hel, hname⟩ := List.mem_map.mp (h.leader.resolve_left hknown.1)
      have hindex : ∃ mbox, (sys.client.index sys.client.clusterLeader).1 = some mbox := by
        unfold Client.index
        split
        next found hfind => exact hmbox found (List.mem_of_find?_eq_some hfind)
        next hmissing => simpa [hname] using List.find?_eq_none.mp hmissing el hel
      obtain ⟨mbox, hindex⟩ := hindex
      have hsend : ({ sys.client with state := .on } : Client).index sys.client.clusterLeader =
          sys.client.index sys.client.clusterLeader := rfl
      simp [hsend, hindex, send, bind, Except.bind, pure, Except.pure] at hlimit
  · cases hlimit

/-- A post does not end the program. -/
theorem Cluster.eq_disabled_of_post {m : Membership} {c : Cluster} {receiver : ByteString}
    {msg : Msg} {halt : Halt} (h : c.next m (.post receiver msg) = .error halt) :
    halt = .disabled := by
  simp only [next] at h
  split_ifs at h
  exact (Except.error.inj h).symm

/-- A step that ends a system with an informed client is one of a server. -/
theorem System.Informed.next_eq_error {m : Membership} {sys : System} (h : Informed m sys)
    {a : SystemAction} {halt : Halt} (hhalt : halt ≠ .disabled)
    (hnext : sys.next m a = .error halt) :
    ∃ b, a = .server b ∧ sys.cluster.next m b = .error halt := by
  have hdisabled : ¬ Halt.disabled = halt := fun hsame ↦ hhalt hsame.symm
  cases a with
  | server b =>
    simp only [next] at hnext
    split_ifs at hnext
    · simp only [except_bind_eq_error_iff, pure, Except.pure, reduceCtorEq, and_false,
        exists_false, or_false] at hnext
      exact ⟨b, rfl, hnext⟩
    · exact absurd (Except.error.inj hnext) hdisabled
  | post | deliver =>
    simp only [next] at hnext
    split_ifs at hnext
    exact absurd (Except.error.inj hnext) hdisabled
  | respond e =>
    simp only [next] at hnext
    split at hnext
    · split_ifs at hnext
      exact absurd (Except.error.inj hnext) hdisabled
    · exact absurd (Except.error.inj hnext) hdisabled
  | timeLimit idx =>
    simp only [next] at hnext
    split_ifs at hnext
    · simp only [except_bind_eq_error_iff, pure, Except.pure, reduceCtorEq, and_false,
        exists_false, or_false] at hnext
      exact absurd hnext (h.timeLimit_ne_error idx halt)
    · exact absurd (Except.error.inj hnext) hdisabled

namespace Program

variable {p p' : Program} {a : ProgramAction} {b : Action} {order : List ByteString}
  {trace : History} {past : Cluster.History} {name : ByteString}

/-! ### Steps of the cluster -/

/-- The number of signals to deactivate a server that `main` still has to send. -/
def signalsLeft (name : ByteString) (rest : List Call) : ℕ :=
  rest.count (.server name .deactivate)

/-- The cluster takes a step with a step of the program. A request that is posted comes from the
client, whose time limit expires, and a signal from the script. -/
structure Advances (p : Program) (a : ProgramAction) (p' : Program) (b : Action) : Prop where
  step : Cluster.Step fiveServers p.system.cluster b p'.system.cluster
  request : ∀ receiver cr, b = .post receiver (.clientRequest cr) →
    (∃ idx, a = .agents (.timeLimit idx)) ∧ cr.inbox = p.system.client.mbox ∧
      (cr.cmd = [] ∨ cr.cmd = bytes "ADD;1")
  delivery : ∀ receiver e, b = .deliver receiver e → a = .agents (.server b)
  signals : ∀ name, Cluster.posted (Cluster.signals name)
      ⟨p.system.cluster, b, p'.system.cluster⟩ + signalsLeft name p'.rest =
    signalsLeft name p.rest

/-- The cluster stays as it is with a step of the program. -/
structure Stays (p p' : Program) : Prop where
  cluster : p'.system.cluster = p.system.cluster
  signals : ∀ name, signalsLeft name p'.rest = signalsLeft name p.rest

/-- The script has no requests. -/
def Requestless (rest : List Call) : Prop :=
  ∀ receiver cr, .server receiver (.clientRequest cr) ∉ rest

theorem requestless_script (order : List ByteString) : Requestless (script order) := by
  intro receiver cr h
  simp [script] at h

/-- A call of `main` posts a message to a server, or to the client. -/
theorem advances_or_stays_main (hrest : Requestless p.rest) (h : Step p .main p') :
    (∃ b, Advances p .main p' b) ∨ Stays p p' := by
  unfold Step next at h
  dsimp only at h
  split at h
  next => simp at h
  next call rest hcalls =>
    simp only [except_bind_eq_ok_iff, pure, Except.pure, Except.ok.injEq] at h
    obtain ⟨system, hsystem, rfl⟩ := h
    cases call with
    | client msg =>
      simp only [Call.action, System.next] at hsystem
      split_ifs at hsystem
      obtain rfl := Except.ok.inj hsystem
      exact Or.inr ⟨rfl, fun name ↦ by simp [hcalls, signalsLeft]⟩
    | server name msg =>
      simp only [Call.action, System.next] at hsystem
      split_ifs at hsystem
      simp only [except_bind_eq_ok_iff, pure, Except.pure, Except.ok.injEq] at hsystem
      obtain ⟨cluster, hcluster, rfl⟩ := hsystem
      refine Or.inl ⟨_, hcluster, fun receiver cr hpost ↦ ?_, by simp, fun receiver ↦ ?_⟩
      · obtain ⟨rfl, rfl⟩ := Action.post.inj hpost
        exact absurd (hcalls ▸ List.mem_cons_self) (hrest name cr)
      · simp only [Cluster.posted, Cluster.signals, signalsLeft, hcalls, List.count_cons]
        by_cases hsignal : name = receiver ∧ msg = .deactivate
        · simp [hsignal, Nat.add_comm]
        · have hcall : Call.server name msg ≠ .server receiver .deactivate := by
            simpa using hsignal
          simp [hsignal, hcall]

/-- What the client sends when its time limit expires is posted to a server. -/
theorem advances_or_stays_timeLimit (hinformed : System.Informed fiveServers p.system) {idx : ℕ}
    {client : Client} {out : List Output}
    (hlimit : p.system.client.timeLimit idx = .ok (client, out)) :
    let p' : Program :=
      { p with system := { p.system with client, cluster := System.withSent p.system.cluster out } }
    (∃ b, Advances p (.agents (.timeLimit idx)) p' b) ∨ Stays p p' := by
  intro p'
  have hrequest := fun o ho ↦ Client.request_of_timeLimit hlimit (o := o) ho
  rcases (Client.timeLimit_cases hlimit).2 with ⟨-, rfl⟩ | ⟨mbox, cmd, hmem, rfl⟩
  · exact Or.inr ⟨by simp [p', System.withSent], fun _ ↦ rfl⟩
  · obtain ⟨cr, hcr, hinbox, hcmd⟩ := hrequest _ (List.mem_singleton_self _)
    obtain rfl := Msg.clientRequest.inj hcr
    have hmap : p.system.client.mboxes = fiveServers.setCluster.mboxes :=
      hinformed.map.resolve_left fun hnone ↦ by simp [hnone] at hmem
    rw [hmap] at hmem
    obtain ⟨hmember, hmbox⟩ := Membership.mem_setCluster.mp hmem
    obtain rfl : mbox = .server client.clusterLeader := Option.some.inj hmbox
    refine Or.inl ⟨.post client.clusterLeader (.clientRequest ⟨p.system.client.mbox, cmd⟩),
      if_pos ⟨hmember, trivial⟩, fun receiver cr hpost ↦ ?_, by simp, fun name ↦ ?_⟩
    · obtain ⟨-, hmsg⟩ := Action.post.inj hpost
      obtain rfl := Msg.clientRequest.inj hmsg
      exact ⟨⟨idx, rfl⟩, rfl, hcmd⟩
    · simp [Cluster.posted, Cluster.signals, p']

/-- With a step of the program the cluster takes a step or stays as it is. -/
theorem advances_or_stays (hinformed : System.Informed fiveServers p.system)
    (hrest : Requestless p.rest) (h : Step p a p') :
    (∃ b, Advances p a p' b) ∨ Stays p p' := by
  cases a with
  | main => exact advances_or_stays_main hrest h
  | agents b =>
    unfold Step next at h
    dsimp only at h
    split_ifs at h with hpost
    simp only [except_bind_eq_ok_iff, pure, Except.pure, Except.ok.injEq] at h
    obtain ⟨system, hsystem, rfl⟩ := h
    cases b with
    | server b =>
      simp only [System.next] at hsystem
      split_ifs at hsystem
      simp only [except_bind_eq_ok_iff, pure, Except.pure, Except.ok.injEq] at hsystem
      obtain ⟨cluster, hcluster, rfl⟩ := hsystem
      cases b with
      | post receiver msg => exact absurd rfl hpost
      | deliver | internal =>
        exact Or.inl ⟨_, hcluster, by simp, fun _ _ _ ↦ rfl, fun _ ↦ Nat.zero_add _⟩
    | post msg => exact absurd rfl hpost
    | deliver msg =>
      simp only [System.next] at hsystem
      split_ifs at hsystem
      obtain rfl := Except.ok.inj hsystem
      exact Or.inr ⟨rfl, fun _ ↦ rfl⟩
    | respond e =>
      simp only [System.next] at hsystem
      split at hsystem
      · split_ifs at hsystem
        obtain rfl := Except.ok.inj hsystem
        exact Or.inr ⟨rfl, fun _ ↦ rfl⟩
      · simp at hsystem
    | timeLimit idx =>
      simp only [System.next] at hsystem
      split_ifs at hsystem
      simp only [except_bind_eq_ok_iff, pure, Except.pure, Except.ok.injEq, Prod.exists] at hsystem
      obtain ⟨client, out, hlimit, rfl⟩ := hsystem
      exact advances_or_stays_timeLimit hinformed hlimit

/-! ### The run of the cluster -/

/-- What is known of a run of the program: the cluster goes through a run of its own, in which the
client posts the requests and the script the signals. -/
structure Scripted (past : Cluster.History) (p : Program) : Prop where
  run : Cluster.Run fiveServers .initial past p.system.cluster
  informed : System.Informed fiveServers p.system
  requestless : Requestless p.rest
  request : ∀ cr, Cluster.Requested past cr → cr.cmd = [] ∨ cr.cmd = bytes "ADD;1"
  signals : ∀ name, Cluster.total (Cluster.posted (Cluster.signals name)) past +
    signalsLeft name p.rest = if name = bytes "server2" then 4 else 0

/-- The script has four signals for the second server, and no others. -/
theorem signalsLeft_script (name : ByteString) (order : List ByteString) :
    signalsLeft name (script order) = if name = bytes "server2" then 4 else 0 := by
  have hmap : (order.flatMap fun name ↦ [Call.server name (.setCluster fiveServers.setCluster),
      .server name .changeState]).count (.server name .deactivate) = 0 := by
    refine List.count_eq_zero.mpr fun h ↦ ?_
    obtain ⟨receiver, -, hcall⟩ := List.mem_flatMap.mp h
    simp only [List.mem_pair, Call.server.injEq, reduceCtorEq, and_false, or_self] at hcall
  unfold signalsLeft script
  rw [List.count_append, List.count_append, hmap, List.count_replicate]
  by_cases hsecond : name = bytes "server2"
  · rw [hsecond, if_pos rfl]
    rfl
  · have hcall : Call.server (bytes "server2") .deactivate ≠ .server name .deactivate :=
      fun h ↦ hsecond (Call.server.inj h).1.symm
    rw [if_neg hsecond, if_neg (by simpa using hcall)]
    rfl

/-- The program starts with nothing requested, and the whole script. -/
theorem scripted_initial (order : List ByteString) : Scripted [] (initial order) where
  run := .nil
  informed := System.informed_initial
  requestless := requestless_script order
  request cr h := by simp [Cluster.Requested] at h
  signals name := by
    rw [← signalsLeft_script name order]
    exact Nat.zero_add _

/-- Calls that are left to make have no requests. -/
theorem Requestless.step (h : Requestless p.rest) (hstep : Step p a p') : Requestless p'.rest := by
  intro receiver cr hcall
  rcases step_cases hstep with ⟨call, hrest, -⟩ | ⟨b, -, hrest, -⟩
  · exact h receiver cr (hrest ▸ List.mem_cons_of_mem _ hcall)
  · exact h receiver cr (hrest ▸ hcall)

/-- The client stays informed. -/
theorem informed_step (h : System.Informed fiveServers p.system)
    (hnames : Cluster.Redirects fiveServers past p.system.cluster) (hstep : Step p a p') :
    System.Informed fiveServers p'.system := by
  rcases step_cases hstep with ⟨call, -, hsystem⟩ | ⟨b, -, -, hsystem⟩
  · exact (h.step hnames hsystem).1
  · exact (h.step hnames hsystem).1

/-- A step of the program adds the step of the cluster to its run. -/
theorem Scripted.advance (h : Scripted past p) (hstep : Step p a p')
    (hadvances : Advances p a p' b) :
    Scripted (past ++ [⟨p.system.cluster, b, p'.system.cluster⟩]) p' where
  run := h.run.snoc hadvances.step
  informed := informed_step h.informed (Cluster.redirects_run h.run) hstep
  requestless := h.requestless.step hstep
  request cr := by
    rintro ⟨t, ht, receiver, hpost⟩
    rcases List.mem_append.mp ht with hold | hnew
    · exact h.request cr ⟨t, hold, receiver, hpost⟩
    · obtain rfl := List.mem_singleton.mp hnew
      exact (hadvances.request receiver cr hpost).2.2
  signals name := by
    rw [Cluster.total_snoc, Nat.add_assoc, hadvances.signals, h.signals]

/-- A step of the program that leaves the cluster as it is keeps its run. -/
theorem Scripted.stay (h : Scripted past p) (hstep : Step p a p') (hstays : Stays p p') :
    Scripted past p' where
  run := hstays.cluster ▸ h.run
  informed := informed_step h.informed (Cluster.redirects_run h.run) hstep
  requestless := h.requestless.step hstep
  request := h.request
  signals name := by rw [hstays.signals, h.signals]

/-- A run of the program is a run of the cluster with the requests of the client and the signals of
the script. -/
theorem scripted_run (hrun : Run order trace p) : ∃ past, Scripted past p := by
  induction hrun with
  | nil => exact ⟨[], scripted_initial order⟩
  | snoc _ hstep ih =>
    obtain ⟨past, hscripted⟩ := ih
    rcases advances_or_stays hscripted.informed hscripted.requestless hstep with
      ⟨b, hadvances⟩ | hstays
    · exact ⟨_, hscripted.advance hstep hadvances⟩
    · exact ⟨past, hscripted.stay hstep hstays⟩

end Program

end RaftConsensus
