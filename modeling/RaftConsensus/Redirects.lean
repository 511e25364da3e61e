import RaftConsensus.HeartbeatLoops
import RaftConsensus.Model.Client
import RaftConsensus.TermDiscipline

/-!
# Redirects

A server learns who leads from the `AppendEntry` messages that it accepts, and tells the clients
that ask it while it follows. `Cluster.Redirects` follows the name from the leader into
`m_curr_leader` and on into the responses: it is that of a member that has led in a term the server
has reached.

`System.Informed` takes it into the client. The client asks nobody before it has the map, and every
name in an answer is in the map, so that it looks up names that the map has
(`redirects_name_leaders`).
-/

set_option autoImplicit false
set_option relaxedAutoImplicit false

namespace RaftConsensus

open TransitionSystem

namespace Server

variable {s s' : Server} {x : Stimulus} {out : List Output} {dst : Mbox}

/-- The leader that a server knows stays as it is, or is that of an accepted message. -/
theorem Effect.currLeader_cases (h : s.Effect x s' out) :
    s'.currLeader = s.currLeader ∨
      ∃ ae, s.Accepts x ae ∧ s'.currLeader = ae.leaderId ∧ s'.term = ae.term := by
  cases h
  case accept ae _ _ hidle hrole hterm _ _ =>
    exact Or.inr ⟨ae, Or.inl ⟨rfl, hidle, hrole, hterm⟩, rfl, rfl⟩
  case enterAccept ae _ _ hagent _ _ => exact Or.inr ⟨ae, Or.inr ⟨rfl, hagent⟩, rfl, rfl⟩
  case countVote | answerVote => exact Or.inl tally_currLeader
  all_goals exact Or.inl rfl

/-- A response answers a request at the mailbox that it gives, and names the server itself or the
leader it knows. -/
theorem Effect.response_sent (h : s.Effect x s' out) {sr : ServerResponse}
    (hsent : (dst, .serverResponse sr) ∈ out) :
    (∃ cmd, x = .handle (.clientRequest ⟨some dst, cmd⟩)) ∧
      (sr.leader = s.name ∨ sr.leader = s.currLeader) := by
  cases h
  case command cr _ _ _ _ _ _ hinbox =>
    obtain ⟨inbox, cmd⟩ := cr
    simp_all
  case query cr _ _ _ _ hinbox =>
    obtain ⟨inbox, cmd⟩ := cr
    simp_all
  case redirect cr _ _ _ hinbox =>
    obtain ⟨inbox, cmd⟩ := cr
    simp_all
  all_goals simp_all

end Server

namespace Cluster

variable {m : Membership} {c c' : Cluster} {a : Action} {trace before : History}
  {name : ByteString} {term : ℤ}

/-- A server that has led is a member. -/
theorem mem_names_of_led (hrun : Run m initial trace c) (h : Led trace name term) :
    name ∈ m.names := by
  obtain ⟨v, hv, hbefore, hafter, -⟩ := h
  obtain ⟨first, rest, rfl, -, hstep, -⟩ := hrun.cut_of_mem hv
  rcases (step_effect hstep).server name with hsame | ⟨x, -, hx, -⟩
  · exact absurd (hsame ▸ hafter) hbefore
  · exact ((step_effect hstep).of_stimulus hx).1

/-- A carried `AppendEntry` names a server that has led in its term. -/
theorem led_of_carries (hrun : Run m initial trace c) {ae : AppendEntry} (h : c.Carries ae) :
    Led trace ae.leaderId ae.term := by
  rcases h with ⟨e, he, hmsg⟩ | ⟨name, hpending⟩
  · exact ((ledTerms_run hrun).message e he ae hmsg).2.led
  · exact (ledTerms_run hrun).handling name ae hpending

/-- A server knows no leader, or a member that has led in a term the server has reached. -/
def LeaderKnown (m : Membership) (history : History) (s : Server) : Prop :=
  s.currLeader = [] ∨ (s.currLeader ∈ m.names ∧ ∃ term ≤ s.term, Led history s.currLeader term)

theorem LeaderKnown.mono {s s' : Server} (h : LeaderKnown m before s) (later : History)
    (hleader : s'.currLeader = s.currLeader) (hterm : s.term ≤ s'.term) :
    LeaderKnown m (before ++ later) s' := by
  unfold LeaderKnown at h ⊢
  rw [hleader]
  rcases h with hnone | ⟨hmember, term, hle, hled⟩
  · exact Or.inl hnone
  · exact Or.inr ⟨hmember, term, hle.trans hterm, hled.mono _⟩

/-- Servers know members that have led, and a response in flight names no leader, or a member. -/
structure Redirects (m : Membership) (history : History) (c : Cluster) : Prop where
  currLeader : ∀ name, LeaderKnown m history (c.servers name)
  response : ∀ e ∈ c.network, ∀ sr, e.msg = .serverResponse sr →
    sr.leader = [] ∨ sr.leader ∈ m.names

/-- Every step of a run keeps the redirects to members that have led. -/
theorem Redirects.step (h : Redirects m before c) (hrun : Run m initial before c)
    (hstep : Step m c a c') : Redirects m (before ++ [⟨c, a, c'⟩]) c' where
  currLeader name := by
    have hmono := (coherent_initial.run hrun).term_le hstep name
    rcases (step_effect hstep).server name with hsame | ⟨x, out, -, havailable, heffect⟩
    · exact (h.currLeader name).mono _ (by rw [hsame]) hmono
    · rcases heffect.currLeader_cases with hsame | ⟨ae, haccepts, hleader, hterm⟩
      · exact (h.currLeader name).mono _ hsame hmono
      · have hled := led_of_carries hrun (carries_of_accepts havailable haccepts)
        right
        rw [hleader, hterm]
        exact ⟨mem_names_of_led hrun hled, ae.term, le_rfl, hled.mono _⟩
  response e he sr hmsg := by
    rcases (step_effect hstep).network_of_server he hmsg id with
        hold | ⟨name, x, out, hx, -, heffect, hsent, -⟩
    · exact h.response e hold sr hmsg
    · rw [hmsg] at hsent
      rcases (heffect.response_sent hsent).2 with hself | hknown
      · right
        rw [hself, (coherent_initial.run hrun).name_eq]
        exact ((step_effect hstep).of_stimulus hx).1
      · rw [hknown]
        exact (h.currLeader name).imp_right And.left

/-- In a run servers redirect to members that have led. -/
theorem redirects_run (hrun : Run m initial trace c) : Redirects m trace c := by
  induction hrun with
  | nil => constructor <;> simp [initial, Server.initial, LeaderKnown]
  | snoc hrest hstep ih => exact ih.step hrest hstep

end Cluster

/-! ### The client -/

namespace Client

variable {c c' : Client} {idx : ℕ} {out : List Output} {name : ByteString} {mbox : Mbox}

/-- A name that the map has is looked up without an insertion. -/
theorem index_of_mem (h : name ∈ c.mboxes.map Prod.fst) : (c.index name).2 = c.mboxes := by
  obtain ⟨el, hel, rfl⟩ := List.mem_map.mp h
  unfold index
  split
  · rfl
  next hmissing => simpa using List.find?_eq_none.mp hmissing el hel

/-- A lookup that finds a mailbox finds the one of the map. -/
theorem mem_of_index (h : (c.index name).1 = some mbox) :
    (name, some mbox) ∈ c.mboxes ∧ (c.index name).2 = c.mboxes := by
  unfold index at h ⊢
  split at h
  next el hfind =>
    have hname : el.1 = name := by simpa using List.find?_some hfind
    have hel : el = (name, some mbox) := Prod.ext hname h
    exact ⟨hel ▸ List.mem_of_find?_eq_some hfind, rfl⟩
  next => simp at h

/-- A response leaves the map as it is, and the known leader as it is or the one it names. -/
theorem handle_response (sr : ServerResponse) :
    (c.handle (.serverResponse sr)).mboxes = c.mboxes ∧
      ((c.handle (.serverResponse sr)).clusterLeader = sr.leader ∨
        (c.handle (.serverResponse sr)).clusterLeader = c.clusterLeader) := by
  by_cases hstatus : sr.status = 0
  · simp [handle, hstatus]
  · simp [handle, hstatus]

/-- When its time limit expires the client sends nothing, or a request to a server of its map, which
is the leader it knows from then on. -/
theorem timeLimit_cases (h : c.timeLimit idx = .ok (c', out)) :
    c'.mboxes = c.mboxes ∧ ((c'.clusterLeader = c.clusterLeader ∧ out = []) ∨
      ∃ mbox cmd, (c'.clusterLeader, some mbox) ∈ c.mboxes ∧
        out = [(mbox, .clientRequest ⟨c.mbox, cmd⟩)]) := by
  unfold timeLimit enterOn at h
  split at h
  · split_ifs at h with hunknown hknown
    · split at h
      next el hel =>
        simp only [except_bind_eq_ok_iff, send_eq_ok_iff, pure, Except.pure, Except.ok.injEq,
          Prod.mk.injEq] at h
        obtain ⟨_, ⟨mbox, hmbox, rfl⟩, rfl, rfl⟩ := h
        refine ⟨rfl, Or.inr ⟨mbox, _, ?_, rfl⟩⟩
        rw [← hmbox]
        exact List.mem_of_getElem? hel
      next =>
        simp only [Except.ok.injEq, Prod.mk.injEq] at h
        obtain ⟨rfl, rfl⟩ := h
        exact ⟨rfl, Or.inl ⟨rfl, rfl⟩⟩
    · simp only [except_bind_eq_ok_iff, send_eq_ok_iff, pure, Except.pure, Except.ok.injEq,
        Prod.mk.injEq] at h
      obtain ⟨_, ⟨mbox, hmbox, rfl⟩, rfl, rfl⟩ := h
      obtain ⟨hmem, hsame⟩ := mem_of_index hmbox
      exact ⟨hsame, Or.inr ⟨mbox, _, hmem, rfl⟩⟩
    · simp only [Except.ok.injEq, Prod.mk.injEq] at h
      obtain ⟨rfl, rfl⟩ := h
      exact ⟨rfl, Or.inl ⟨rfl, rfl⟩⟩
  · simp only [Except.ok.injEq, Prod.mk.injEq] at h
    obtain ⟨rfl, rfl⟩ := h
    exact ⟨rfl, Or.inl ⟨rfl, rfl⟩⟩

end Client

namespace System

variable {m : Membership} {sys sys' : System} {a : SystemAction} {trace : History}
  {past : Cluster.History}

/-- What the client has learned. It has the whole map or none, it knows no leader or one of its
map, and as long as it has no map, no request is under way in its name and no answer to it. -/
structure Informed (m : Membership) (sys : System) : Prop where
  map : sys.client.mboxes = [] ∨ sys.client.mboxes = m.setCluster.mboxes
  posted : ∀ msg ∈ sys.posted, Postable m msg
  leader : sys.client.clusterLeader = [] ∨
    sys.client.clusterLeader ∈ sys.client.mboxes.map Prod.fst
  request : sys.client.mboxes = [] → ∀ e ∈ sys.cluster.network, ∀ cr,
    e.msg = .clientRequest cr → cr.inbox ≠ some clientInbox
  response : sys.client.mboxes = [] → ∀ e ∈ sys.cluster.network, ∀ sr,
    e.msg = .serverResponse sr → e.dst ≠ clientInbox

/-- The client is informed as the system is constructed. -/
theorem informed_initial : Informed m initial where
  map := Or.inl rfl
  posted msg h := by simp [initial] at h
  leader := Or.inl rfl
  request _ e he := by simp [initial, Cluster.initial] at he
  response _ e he := by simp [initial, Cluster.initial] at he

/-- A step of the cluster keeps the client informed: nobody else asks in its name. -/
theorem Informed.server (h : Informed m sys) {b : Action} (hforeign : Foreign b) {c' : Cluster}
    (hstep : Cluster.Step m sys.cluster b c') : Informed m { sys with cluster := c' } where
  map := h.map
  posted := h.posted
  leader := h.leader
  request hnone e he cr hmsg := by
    rcases hstep.mem_network he with hold | ⟨receiver, msg, rfl, -, rfl⟩ | ⟨name, -, hsent⟩
    · exact h.request hnone e hold cr hmsg
    · obtain rfl : msg = .clientRequest cr := hmsg
      exact hforeign
    · obtain ⟨-, x, -, -, heffect⟩ := hstep.of_mem_outputs hsent
      exact absurd hmsg ((heffect.not_sent hsent).2.1 cr)
  response hnone e he sr hmsg := by
    rcases hstep.mem_network_of_server he hmsg id with hold | ⟨name, -, hsent⟩
    · exact h.response hnone e hold sr hmsg
    · obtain ⟨-, x, -, havailable, heffect⟩ := hstep.of_mem_outputs hsent
      rw [hmsg] at hsent
      obtain ⟨⟨cmd, rfl⟩, -⟩ := heffect.response_sent hsent
      obtain ⟨asking, hasking, -, haskmsg⟩ := havailable _ rfl
      have hinbox := h.request hnone asking hasking _ haskmsg
      exact fun hdst ↦ hinbox (congrArg some hdst)

/-- A message of `main` keeps the client informed: its map is the whole one. -/
theorem Informed.deliver (h : Informed m sys) {msg : ClientMsg} (hposted : msg ∈ sys.posted) :
    Informed m
      { sys with client := sys.client.handle msg, posted := sys.posted.erase msg } := by
  have hrest : ∀ msg' ∈ sys.posted.erase msg, Postable m msg' :=
    fun msg' hmsg' ↦ h.posted msg' (List.mem_of_mem_erase hmsg')
  have hpostable := h.posted msg hposted
  cases msg with
  | setCluster sc =>
    obtain rfl : sc = m.setCluster := hpostable
    have hnone (hmap : m.setCluster.mboxes = []) : sys.client.mboxes = [] :=
      h.map.elim id fun hsame ↦ hsame.trans hmap
    refine ⟨Or.inr rfl, hrest, ?_, fun hmap ↦ h.request (hnone hmap),
      fun hmap ↦ h.response (hnone hmap)⟩
    rcases h.leader with hunknown | hknown
    · exact Or.inl hunknown
    · rcases h.map with hmap | hmap
      · simp [hmap] at hknown
      · right
        rw [hmap] at hknown
        exact hknown
  | setMBox mbox => exact ⟨h.map, hrest, h.leader, h.request, h.response⟩
  | serverResponse sr => exact hpostable.elim

/-- A response keeps the client informed: it names a member, and the client has the map by then. -/
theorem Informed.respond (h : Informed m sys) (hnames : Cluster.Redirects m past sys.cluster)
    {e : Envelope} {sr : ServerResponse} (hmsg : e.msg = .serverResponse sr)
    (hflight : sys.InFlight e) :
    Informed m { sys with client := sys.client.handle (.serverResponse sr),
                          handled := sys.handled ++ [e] } := by
  have he : e ∈ sys.cluster.network := List.count_pos_iff.mp (Nat.zero_lt_of_lt hflight.2)
  have hmap : sys.client.mboxes = m.setCluster.mboxes := by
    rcases h.map with hnone | hmap
    · exact absurd hflight.1 (h.response hnone e he sr hmsg)
    · exact hmap
  obtain ⟨hclient, hleader⟩ := sys.client.handle_response sr
  refine ⟨Or.inr (hclient.trans hmap), h.posted, ?_, fun hnone ↦ h.request (hclient ▸ hnone),
    fun hnone ↦ h.response (hclient ▸ hnone)⟩
  dsimp only
  rw [hclient]
  rcases hleader with hnamed | hsame
  · rw [hnamed, hmap]
    exact (hnames.response e he sr hmsg).imp_right Membership.mem_setCluster_names.mpr
  · rw [hsame]
    exact h.leader

/-- The expiry of its time limit keeps the client informed: it asks a server of its map. -/
theorem Informed.timeLimit (h : Informed m sys) {idx : ℕ} {client : Client} {out : List Output}
    (hlimit : sys.client.timeLimit idx = .ok (client, out)) :
    Informed m { sys with client, cluster := withSent sys.cluster out } := by
  obtain ⟨hmap, hcases⟩ := Client.timeLimit_cases hlimit
  have hsilent (hnone : sys.client.mboxes = []) : withSent sys.cluster out = sys.cluster := by
    rcases hcases with ⟨-, rfl⟩ | ⟨mbox, cmd, hmem, -⟩
    · simp [withSent]
    · simp [hnone] at hmem
  refine ⟨hmap ▸ h.map, h.posted, ?_, fun hnone ↦ ?_, fun hnone ↦ ?_⟩
  · dsimp only
    rw [hmap]
    rcases hcases with ⟨hleader, -⟩ | ⟨mbox, cmd, hmem, -⟩
    · exact hleader ▸ h.leader
    · exact Or.inr (List.mem_map_of_mem hmem)
  · dsimp only at hnone ⊢
    rw [hsilent (hmap ▸ hnone)]
    exact h.request (hmap ▸ hnone)
  · dsimp only at hnone ⊢
    rw [hsilent (hmap ▸ hnone)]
    exact h.response (hmap ▸ hnone)

/-- What the client sends when its time limit expires is posted to a member. -/
theorem Informed.withSent_step (h : Informed m sys) {idx : ℕ} {client : Client}
    {out : List Output} (hlimit : sys.client.timeLimit idx = .ok (client, out)) :
    withSent sys.cluster out = sys.cluster ∨
      ∃ b, Cluster.Step m sys.cluster b (withSent sys.cluster out) := by
  rcases (Client.timeLimit_cases hlimit).2 with ⟨-, rfl⟩ | ⟨mbox, cmd, hmem, rfl⟩
  · exact Or.inl (by simp [withSent])
  · rcases h.map with hnone | hmap
    · simp [hnone] at hmem
    · rw [hmap] at hmem
      obtain ⟨hmember, hmbox⟩ := Membership.mem_setCluster.mp hmem
      obtain rfl : mbox = .server client.clusterLeader := Option.some.inj hmbox
      right
      refine ⟨.post client.clusterLeader (.clientRequest ⟨sys.client.mbox, cmd⟩), ?_⟩
      exact if_pos ⟨hmember, trivial⟩

/-- What a step of the system does: a step of the cluster, a message to or from the client, or the
expiry of its time limit. -/
theorem step_cases (h : Step m sys a sys') :
    (∃ b c', Foreign b ∧ Cluster.Step m sys.cluster b c' ∧ sys' = { sys with cluster := c' }) ∨
      (∃ msg, Postable m msg ∧ sys' = { sys with posted := sys.posted ++ [msg] }) ∨
      (∃ msg ∈ sys.posted, sys' =
        { sys with client := sys.client.handle msg, posted := sys.posted.erase msg }) ∨
      (∃ e sr, e.msg = .serverResponse sr ∧ sys.InFlight e ∧ sys' =
        { sys with client := sys.client.handle (.serverResponse sr),
                   handled := sys.handled ++ [e] }) ∨
      ∃ idx client out, sys.client.timeLimit idx = .ok (client, out) ∧
        sys' = { sys with client, cluster := withSent sys.cluster out } := by
  unfold Step next at h
  cases a with
  | server b =>
    dsimp only at h
    split_ifs at h with hforeign
    simp only [except_bind_eq_ok_iff, pure, Except.pure, Except.ok.injEq] at h
    obtain ⟨c', hstep, rfl⟩ := h
    exact Or.inl ⟨b, c', hforeign, hstep, rfl⟩
  | post msg =>
    dsimp only at h
    split_ifs at h with hpostable
    exact Or.inr (Or.inl ⟨msg, hpostable, (Except.ok.inj h).symm⟩)
  | deliver msg =>
    dsimp only at h
    split_ifs at h with hmsg
    exact Or.inr (Or.inr (Or.inl ⟨msg, hmsg, (Except.ok.inj h).symm⟩))
  | respond e =>
    dsimp only at h
    split at h
    next sr hmsg =>
      split_ifs at h with hflight
      exact Or.inr (Or.inr (Or.inr (Or.inl ⟨e, sr, hmsg, hflight, (Except.ok.inj h).symm⟩)))
    next => simp at h
  | timeLimit idx =>
    dsimp only at h
    split_ifs at h
    simp only [except_bind_eq_ok_iff, pure, Except.pure, Except.ok.injEq, Prod.exists] at h
    obtain ⟨client, out, hlimit, rfl⟩ := h
    exact Or.inr (Or.inr (Or.inr (Or.inr ⟨idx, client, out, hlimit, rfl⟩)))

/-- Every step keeps the client informed, and takes no step or one step of the cluster. -/
theorem Informed.step (h : Informed m sys) (hnames : Cluster.Redirects m past sys.cluster)
    (hstep : Step m sys a sys') :
    Informed m sys' ∧
      (sys'.cluster = sys.cluster ∨ ∃ b, Cluster.Step m sys.cluster b sys'.cluster) := by
  rcases step_cases hstep with ⟨b, c', hforeign, hserver, rfl⟩ | ⟨msg, hpostable, rfl⟩ |
    ⟨msg, hmsg, rfl⟩ | ⟨e, sr, hmsg, hflight, rfl⟩ | ⟨idx, client, out, hlimit, rfl⟩
  · exact ⟨h.server hforeign hserver, Or.inr ⟨b, hserver⟩⟩
  · refine ⟨⟨h.map, fun msg' hmsg' ↦ ?_, h.leader, h.request, h.response⟩, Or.inl rfl⟩
    rcases List.mem_append.mp hmsg' with hold | hnew
    · exact h.posted msg' hold
    · exact List.mem_singleton.mp hnew ▸ hpostable
  · exact ⟨h.deliver hmsg, Or.inl rfl⟩
  · exact ⟨h.respond hnames hmsg hflight, Or.inl rfl⟩
  · exact ⟨h.timeLimit hlimit, h.withSent_step hlimit⟩

/-- A server has entered the leader state in a term, in a run of the system. -/
def Led (history : History) (name : ByteString) (term : ℤ) : Prop :=
  ∃ t ∈ history, (t.source.cluster.servers name).role ≠ .leader ∧
    (t.target.cluster.servers name).role = .leader ∧
    (t.target.cluster.servers name).term = term

/-- In a run of the system the client is informed, and the cluster goes through a run of its own in
which the same servers have led. -/
theorem informed_run (hrun : Run m initial trace sys) :
    Informed m sys ∧ ∃ past, Cluster.Run m .initial past sys.cluster ∧
      ∀ name term, Cluster.Led past name term → Led trace name term := by
  induction hrun with
  | nil => exact ⟨informed_initial, [], Run.nil, by simp [Cluster.Led]⟩
  | @snoc trace middle final action hrest hstep ih =>
    obtain ⟨hinformed, past, hpast, hled⟩ := ih
    obtain ⟨hfinal, hcluster⟩ := hinformed.step (Cluster.redirects_run hpast) hstep
    refine ⟨hfinal, ?_⟩
    have hmono : ∀ name term, Cluster.Led past name term →
        Led (trace ++ [⟨middle, action, final⟩]) name term := by
      intro name term hpastled
      obtain ⟨t, ht, henters⟩ := hled name term hpastled
      exact ⟨t, List.mem_append_left _ ht, henters⟩
    rcases hcluster with hsame | ⟨b, hserver⟩
    · exact ⟨past, hsame ▸ hpast, hmono⟩
    · refine ⟨_, hpast.snoc hserver, fun name term ⟨v, hv, henters⟩ ↦ ?_⟩
      rcases List.mem_append.mp hv with hold | hnew
      · exact hmono name term ⟨v, hold, henters⟩
      · obtain rfl := List.mem_singleton.mp hnew
        exact ⟨_, List.mem_append_right _ (List.mem_singleton_self _), henters⟩

end System

/-- In every state of every run of the servers and the client, a server knows no leader, or a
member that has entered the leader state in a term that the server has reached, as long as no term
overflows its `int`. A response in flight names no leader, or a member. The client knows no leader,
or one that its map has, so that it looks it up without inserting it. -/
theorem redirects_name_leaders {m : Membership} {trace : System.History} {sys : System}
    (hrun : System.Run m .initial trace sys) :
    (∀ name, (sys.cluster.servers name).currLeader = [] ∨
        ((sys.cluster.servers name).currLeader ∈ m.names ∧
          ∃ term ≤ (sys.cluster.servers name).term,
            System.Led trace (sys.cluster.servers name).currLeader term)) ∧
      (∀ e ∈ sys.cluster.network, ∀ sr, e.msg = .serverResponse sr →
        sr.leader = [] ∨ sr.leader ∈ m.names) ∧
      (sys.client.clusterLeader = [] ∨
        sys.client.clusterLeader ∈ sys.client.mboxes.map Prod.fst) ∧
      (sys.client.clusterLeader ≠ [] →
        (sys.client.index sys.client.clusterLeader).2 = sys.client.mboxes) := by
  obtain ⟨hinformed, past, hpast, hled⟩ := System.informed_run hrun
  have hredirects := Cluster.redirects_run hpast
  refine ⟨fun name ↦ ?_, hredirects.response, hinformed.leader, fun hknown ↦ ?_⟩
  · refine (hredirects.currLeader name).imp_right fun ⟨hmember, term, hterm, hpastled⟩ ↦ ?_
    exact ⟨hmember, term, hterm, hled _ _ hpastled⟩
  · exact Client.index_of_mem (hinformed.leader.resolve_left hknown)

/-- A follower knows the leader, a client asks it, and the client takes the leader from the
answer. -/
def Schedule.redirection : List SystemAction :=
  let cr : ClientRequest := ⟨some System.clientInbox, []⟩
  (form trio ++ firstElection ++ heartbeats (bytes "server1") 0 trio.names ++
    append (bytes "server2") (firstLeaderEntries 0 0 [])).map .server ++
  [.post (.setCluster trio.setCluster), .deliver (.setCluster trio.setCluster),
    .post (.setMBox (some System.clientInbox)), .deliver (.setMBox (some System.clientInbox)),
    .timeLimit 1,
    .server (.deliver (bytes "server2")
      ⟨none, none, .server (bytes "server2"), .clientRequest cr⟩),
    .respond ⟨some (bytes "server2"), some (.clientRequest cr), System.clientInbox,
      .serverResponse ⟨0, [], bytes "server1"⟩⟩]

/-- The client has learned the leader from a follower, and it is one that has led in the term of
the follower. -/
theorem redirects_name_leaders_redirection :
    let trace := history (System.next Schedule.trio) .initial Schedule.redirection
    let sys := finalState (System.next Schedule.trio) .initial Schedule.redirection
    sys.client.clusterLeader = bytes "server1" ∧
      sys.client.clusterLeader ∈ sys.client.mboxes.map Prod.fst ∧
      ∃ term ≤ (1 : ℤ), System.Led trace (bytes "server1") term := by
  intro trace sys
  have hrun : System.Run Schedule.trio .initial trace sys := run_of_isOk (by decide)
  obtain ⟨hservers, -, hclient, -⟩ := redirects_name_leaders hrun
  have hknown : sys.client.clusterLeader = bytes "server1" := by decide
  have hfollower : (sys.cluster.servers (bytes "server2")).currLeader = bytes "server1" := by
    decide
  have hterm : (sys.cluster.servers (bytes "server2")).term = 1 := by decide
  refine ⟨hknown, hclient.resolve_left (by rw [hknown]; decide), ?_⟩
  have hled := hservers (bytes "server2")
  rw [hfollower, hterm] at hled
  exact (hled.resolve_left (by decide)).2

end RaftConsensus
