import RainCall.Foundation.Run

/-!
# The election of a failover leader among Sentinels

Every Sentinel of a master keeps its own vote, the last vote each other Sentinel has reported, and
three epochs: the current one, that of its failover attempt and that of its vote. The Sentinels are
the type `N`, a Sentinel stands for its run id, and all know each other. The clock and the down
flags only decide when a Sentinel starts, asks, forgets an old vote or gives up; here it may at any
time.

No Sentinel votes twice in an epoch. But a Sentinel asks for and counts votes of its *current*
epoch, and leads the failover of its *failover* epoch: once another attempt has moved the current
epoch on, a second Sentinel can be elected for an epoch that has its leader. If the two epochs
agree at every count, two majorities of one epoch share a voter and there is one leader at most.
-/

namespace RainCall

open Function Option

/-- `leader` and `leader_epoch`. -/
structure SentinelVote (N : Type) where
  leader : Option N := none
  leaderEpoch : ℕ := 0

/-- `failover_state`, where the states after the election are one. -/
inductive SentinelFailoverState
  | none | waitStart | selectSlave
deriving DecidableEq

/-- A Sentinel and its entry for the master, which is its own vote. -/
structure SentinelState (N : Type) extends SentinelVote N where
  currentEpoch : ℕ := 0
  failoverEpoch : ℕ := 0
  failoverState : SentinelFailoverState := .none
  sentinels : N → SentinelVote N := fun _ => {}

variable {N : Type} [DecidableEq N]

/-- `sentinelVoteLeader`; the vote that it returns is the one in the new state. -/
def sentinelVoteLeader (s : SentinelState N) (reqEpoch : ℕ) (reqRunid : N) : SentinelState N :=
  let s := { s with currentEpoch := max s.currentEpoch reqEpoch }
  if s.leaderEpoch < reqEpoch ∧ s.currentEpoch ≤ reqEpoch then
    { s with leader := some reqRunid, leaderEpoch := s.currentEpoch }
  else s

/-- The winner and its votes, for `count r` votes for `r`; `order` is the order of the table. -/
def mostVoted (count : N → ℕ) (order : List N) : Option N × ℕ :=
  order.foldl (fun best r => if best.2 < count r then (some r, count r) else best) (none, 0)

section Election

variable [Fintype N]

/-- The other Sentinels known to have voted for `r` in the current epoch. -/
def SentinelState.votersFor (s : SentinelState N) (me r : N) : Finset N :=
  Finset.univ.filter fun p => p ≠ me ∧ (s.sentinels p).leader = some r ∧
    (s.sentinels p).leaderEpoch = s.currentEpoch

/-- `sentinelGetLeader`: the leader and the new state. -/
def sentinelGetLeader (quorum : ℕ) (me : N) (s : SentinelState N) (epoch : ℕ) (order : List N) :
    Option N × SentinelState N :=
  let counters := fun r => (s.votersFor me r).card
  let best := mostVoted counters order
  let s' := sentinelVoteLeader s epoch (best.1.getD me)
  let best' := s'.leader.elim best fun myvote =>
    if s'.leaderEpoch = epoch ∧ best.2 < counters myvote + 1 then (some myvote, counters myvote + 1)
    else best
  (if best'.2 < Fintype.card N / 2 + 1 ∨ best'.2 < quorum then none else best'.1, s')

end Election

/-! ### The Sentinels and their messages -/

/-- The hello messages, and `is-master-down-by-addr` and its reply, if they ask for or carry a
vote. -/
inductive SentinelMsg (N : Type)
  | hello (receiver : N) (epoch : ℕ)
  | request (runid receiver : N) (epoch : ℕ)
  | reply (sender receiver leader : N) (epoch : ℕ)
deriving DecidableEq

/-- All Sentinels, the messages on their way, and what has happened. -/
structure SentinelSystem (N : Type) where
  nodes : N → SentinelState N := fun _ => {}
  net : List (SentinelMsg N) := []
  /-- Every vote a Sentinel has held: who, in which epoch, for whom. -/
  votes : List (N × ℕ × N) := []
  /-- The Sentinels that have passed `sentinelFailoverWaitStart`, with their failover epoch. -/
  elected : List (N × ℕ) := []

/-- The Sentinel `me` goes to the state `s`; the vote it holds there is recorded, old or new. -/
def SentinelSystem.act (sys : SentinelSystem N) (me : N) (s : SentinelState N)
    (net : List (SentinelMsg N)) (won : Bool) : SentinelSystem N where
  nodes := Function.update sys.nodes me s
  net := net
  votes := s.leader.toList.map (fun r => (me, s.leaderEpoch, r)) ++ sys.votes
  elected := if won then (me, (sys.nodes me).failoverEpoch) :: sys.elected else sys.elected

/-- The events at the Sentinel `me`. -/
inductive SentinelEvent (N : Type)
  | publish (me other : N)
  /-- `sentinelStartFailover`. -/
  | start (me : N)
  /-- `sentinelAskMasterStateToOtherSentinels` for one other Sentinel. -/
  | ask (me other : N)
  /-- The same function forgets a vote that is too old. -/
  | forget (me other : N)
  | deliver (m : SentinelMsg N)
  /-- `sentinelFailoverWaitStart`, and whether it gives up if it is not elected. -/
  | waitStart (me : N) (order : List N) (timeout : Bool)
  /-- `sentinelAbortFailover` later on, or `sentinelResetMaster`, which also forgets the vote. -/
  | finish (me : N) (reset : Bool)
  /-- A restart from the file, where the epoch of a failover attempt may be missing. -/
  | restart (me : N) (currentEpoch : ℕ)

/-- The delivery of a message. -/
def SentinelSystem.deliver (sys : SentinelSystem N) (net : List (SentinelMsg N)) :
    SentinelMsg N → SentinelSystem N
  | .hello me epoch =>
    let s := sys.nodes me
    sys.act me { s with currentEpoch := max s.currentEpoch epoch } net false
  | .request runid me epoch =>
    let s := sentinelVoteLeader (sys.nodes me) epoch runid
    sys.act me s (s.leader.toList.map (.reply me runid · s.leaderEpoch) ++ net) false
  | .reply sender me leader epoch =>
    let s := sys.nodes me
    sys.act me { s with sentinels := Function.update s.sentinels sender ⟨some leader, epoch⟩ } net
      false

/-- One event; `none` if it cannot happen. -/
def sentinelStep [Fintype N] (quorum : N → ℕ) (sys : SentinelSystem N) :
    SentinelEvent N → Option (SentinelSystem N)
  | .publish me other =>
    some (sys.act me (sys.nodes me) (.hello other (sys.nodes me).currentEpoch :: sys.net) false)
  | .start me =>
    let s := sys.nodes me
    if s.failoverState = .none then
      some (sys.act me { s with
        failoverState := .waitStart
        currentEpoch := s.currentEpoch + 1
        failoverEpoch := s.currentEpoch + 1 } sys.net false)
    else none
  | .ask me other =>
    let s := sys.nodes me
    if me ≠ other ∧ s.failoverState ≠ .none then
      some (sys.act me s (.request me other s.currentEpoch :: sys.net) false)
    else none
  | .forget me other =>
    let s := sys.nodes me
    some (sys.act me { s with
      sentinels := Function.update s.sentinels other { s.sentinels other with leader := none } }
      sys.net false)
  | .deliver m => if m ∈ sys.net then some (sys.deliver (sys.net.erase m) m) else none
  | .waitStart me order timeout =>
    let s := sys.nodes me
    let p := sentinelGetLeader (quorum me) me s s.failoverEpoch order
    if s.failoverState = .waitStart then
      if p.1 = some me then
        some (sys.act me { p.2 with failoverState := .selectSlave } sys.net true)
      else some (sys.act me { p.2 with
        failoverState := if timeout then .none else s.failoverState } sys.net false)
    else none
  | .finish me reset =>
    let s := sys.nodes me
    some (sys.act me { s with
      leader := if reset then none else s.leader, failoverState := .none } sys.net false)
  | .restart me currentEpoch =>
    some (sys.act me { leaderEpoch := (sys.nodes me).leaderEpoch, currentEpoch } sys.net false)

/-! ### One vote for each epoch -/

/-- The votes held in one epoch are for one run id, and every vote that is known or on its way has
been held. -/
structure SentinelSystem.Voting (sys : SentinelSystem N) : Prop where
  epoch_le : ∀ v e r, (v, e, r) ∈ sys.votes → e ≤ (sys.nodes v).leaderEpoch
  unique : ∀ v e r r', (v, e, r) ∈ sys.votes → (v, e, r') ∈ sys.votes → r = r'
  own : ∀ v r, (sys.nodes v).leader = some r → (v, (sys.nodes v).leaderEpoch, r) ∈ sys.votes
  known : ∀ s v r, ((sys.nodes s).sentinels v).leader = some r →
    (v, ((sys.nodes s).sentinels v).leaderEpoch, r) ∈ sys.votes
  replied : ∀ v s r e, .reply v s r e ∈ sys.net → (v, e, r) ∈ sys.votes

/-- What an event does at the Sentinel `me`: it keeps or forgets the vote, or gives one in a later
epoch; it learns votes from replies, and replies with its own vote. -/
structure SentinelSystem.Acts (sys : SentinelSystem N) (me : N) (s : SentinelState N)
    (net : List (SentinelMsg N)) : Prop where
  vote : s.leaderEpoch = (sys.nodes me).leaderEpoch ∧ (∀ r ∈ s.leader, r ∈ (sys.nodes me).leader) ∨
    (sys.nodes me).leaderEpoch < s.leaderEpoch
  known : ∀ v r, (s.sentinels v).leader = some r →
    s.sentinels v = (sys.nodes me).sentinels v ∨
      ∃ p, .reply v p r (s.sentinels v).leaderEpoch ∈ sys.net
  net : ∀ v p r e, .reply v p r e ∈ net →
    .reply v p r e ∈ sys.net ∨ v = me ∧ s.leader = some r ∧ e = s.leaderEpoch

variable {sys sys' : SentinelSystem N} {me : N} {s : SentinelState N}
  {net : List (SentinelMsg N)} {won : Bool}

lemma SentinelSystem.mem_votes_act {v r : N} {e : ℕ} :
    (v, e, r) ∈ (sys.act me s net won).votes ↔ (v, e, r) ∈ sys.votes ∨
      v = me ∧ e = s.leaderEpoch ∧ s.leader = some r := by
  simp only [act, List.mem_append, List.mem_map, mem_toList, Prod.mk.injEq]
  constructor
  · rintro (⟨r', hr, rfl, rfl, rfl⟩ | h)
    · exact .inr ⟨rfl, rfl, hr⟩
    · exact .inl h
  · rintro (h | ⟨rfl, rfl, hr⟩)
    · exact .inr h
    · exact .inl ⟨r, hr, rfl, rfl, rfl⟩

/-- The record of votes grows. -/
lemma SentinelSystem.votes_subset_act : sys.votes ⊆ (sys.act me s net won).votes :=
  fun _ h => mem_votes_act.mpr (.inl h)

lemma SentinelSystem.nodes_act (v : N) :
    (sys.act me s net won).nodes v = if v = me then s else sys.nodes v := by
  simp only [act, update_apply]

/-- The vote of the acting Sentinel is recorded. -/
lemma SentinelSystem.own_act {r : N} (hr : s.leader = some r) :
    (me, s.leaderEpoch, r) ∈ (sys.act me s net won).votes :=
  mem_votes_act.mpr (.inr ⟨rfl, rfl, hr⟩)

/-- The vote held after an act is the one recorded for its epoch before, if there is one. -/
lemma SentinelSystem.Voting.eq_of_act (h : sys.Voting) (ha : sys.Acts me s net) {r r' : N}
    (hold : (me, s.leaderEpoch, r) ∈ sys.votes) (hr : s.leader = some r') : r = r' := by
  obtain ⟨he, hl⟩ | hlt := ha.vote
  · rw [he] at hold
    exact h.unique _ _ _ _ hold (h.own me r' (hl r' hr))
  · have hle := h.epoch_le me _ r hold
    omega

/-- The invariant is kept by whatever a Sentinel may do. -/
lemma SentinelSystem.Voting.act (h : sys.Voting) (ha : sys.Acts me s net) :
    (sys.act me s net won).Voting where
  epoch_le v e r hv := by
    rw [nodes_act]
    obtain hv | ⟨rfl, rfl, -⟩ := mem_votes_act.mp hv
    · have hle := h.epoch_le v e r hv
      split_ifs with heq
      · subst heq
        obtain ⟨heq, -⟩ | hlt := ha.vote <;> omega
      · exact hle
    · rw [if_pos rfl]
  unique v e r r' hv hv' := by
    obtain hold | ⟨hme, he, hr⟩ := mem_votes_act.mp hv <;>
      obtain hold' | ⟨hme', he', hr'⟩ := mem_votes_act.mp hv'
    · exact h.unique v e r r' hold hold'
    · subst hme' he'
      exact h.eq_of_act ha hold hr'
    · subst hme he
      exact (h.eq_of_act ha hold' hr).symm
    · exact some.inj (hr.symm.trans hr')
  own v r hr := by
    rw [nodes_act] at hr ⊢
    split_ifs at hr ⊢ with heq
    · exact heq ▸ own_act hr
    · exact votes_subset_act (h.own v r hr)
  known p v r hr := by
    rw [nodes_act] at hr ⊢
    refine votes_subset_act ?_
    split_ifs at hr ⊢ with heq
    · obtain hsame | ⟨q, hq⟩ := ha.known v r hr
      · rw [hsame] at hr ⊢
        exact h.known me v r hr
      · exact h.replied v q r _ hq
    · exact h.known p v r hr
  replied v p r e hm := by
    obtain hm | ⟨rfl, hr, rfl⟩ := ha.net v p r e hm
    · exact votes_subset_act (h.replied v p r e hm)
    · exact own_act hr

omit [DecidableEq N] in
lemma sentinelVoteLeader_spec (s : SentinelState N) (e : ℕ) (r : N) :
    ((sentinelVoteLeader s e r).leaderEpoch = s.leaderEpoch ∧
        (∀ r' ∈ (sentinelVoteLeader s e r).leader, r' ∈ s.leader) ∨
      s.leaderEpoch < (sentinelVoteLeader s e r).leaderEpoch) ∧
      (sentinelVoteLeader s e r).sentinels = s.sentinels := by
  simp only [sentinelVoteLeader]
  split_ifs with hvote
  · exact ⟨.inr (by simp only; omega), rfl⟩
  · exact ⟨.inl ⟨rfl, fun _ => id⟩, rfl⟩

/-- Every event is an act of one Sentinel, which passes the election only in
`sentinelFailoverWaitStart`. -/
lemma sentinelStep_cases [Fintype N] {quorum : N → ℕ} {op : SentinelEvent N}
    (hstep : sentinelStep quorum sys op = some sys') :
    ∃ me s net won, sys.act me s net won = sys' ∧ sys.Acts me s net ∧
      (won = true → ∃ order timeout, op = .waitStart me order timeout ∧ ∃ s',
        sentinelGetLeader (quorum me) me (sys.nodes me) (sys.nodes me).failoverEpoch order =
          (some me, s') ∧ s.toSentinelVote = s'.toSentinelVote) := by
  cases op with
  | publish | forget | finish | restart =>
    refine ⟨_, _, _, _, some.inj hstep, ⟨.inl ⟨rfl, ?_⟩, ?_, ?_⟩, Bool.noConfusion⟩ <;>
      simp [update_apply] <;> grind
  | start | ask =>
    simp only [sentinelStep, ite_none_right_eq_some, some.injEq] at hstep
    exact ⟨_, _, _, _, hstep.2, ⟨.inl ⟨rfl, fun _ => id⟩, fun _ _ _ => .inl rfl,
      fun _ _ _ _ hr => .inl (by simpa using hr)⟩, Bool.noConfusion⟩
  | deliver m =>
    simp only [sentinelStep, ite_none_right_eq_some, some.injEq] at hstep
    obtain ⟨hm, hstep⟩ := hstep
    cases m with
    | hello me e =>
      exact ⟨_, _, _, _, hstep, ⟨.inl ⟨rfl, fun _ => id⟩, fun _ _ _ => .inl rfl,
        fun _ _ _ _ hr => .inl (List.mem_of_mem_erase hr)⟩, Bool.noConfusion⟩
    | request p me e =>
      obtain ⟨hvote, hk⟩ := sentinelVoteLeader_spec (sys.nodes me) e p
      refine ⟨_, _, _, _, hstep, ⟨hvote, fun v r _ => .inl (congrFun hk v), fun v q r' e' hr => ?_⟩,
        Bool.noConfusion⟩
      simp only [List.mem_append, List.mem_map, mem_toList, SentinelMsg.reply.injEq] at hr
      obtain ⟨l, hl, rfl, -, rfl, rfl⟩ | hr := hr
      · exact .inr ⟨rfl, hl, rfl⟩
      · exact .inl (List.mem_of_mem_erase hr)
    | reply p me r e =>
      refine ⟨_, _, _, _, hstep, ⟨.inl ⟨rfl, fun _ => id⟩, fun v r' hr => ?_,
        fun _ _ _ _ hr => .inl (List.mem_of_mem_erase hr)⟩, Bool.noConfusion⟩
      simp only [update_apply] at hr ⊢
      split_ifs at hr ⊢ with hv
      · obtain rfl := some.inj hr
        exact .inr ⟨me, hv ▸ hm⟩
      · exact .inl rfl
  | waitStart me order timeout =>
    simp only [sentinelStep, ite_none_right_eq_some] at hstep
    obtain ⟨hvote, hk⟩ := sentinelVoteLeader_spec (sys.nodes me) (sys.nodes me).failoverEpoch
      ((mostVoted (fun r => ((sys.nodes me).votersFor me r).card) order).1.getD me)
    have ha : ∀ st, sys.Acts me { (sentinelGetLeader (quorum me) me (sys.nodes me)
        (sys.nodes me).failoverEpoch order).2 with failoverState := st } sys.net := fun st =>
      ⟨hvote, fun v r _ => .inl (congrFun hk v), fun _ _ _ _ => .inl⟩
    obtain ⟨-, hstep⟩ := hstep
    split at hstep
    · exact ⟨_, _, _, _, some.inj hstep, ha _,
        fun _ => ⟨order, timeout, rfl, _, Prod.ext ‹_› rfl, rfl⟩⟩
    · exact ⟨_, _, _, _, some.inj hstep, ha _, Bool.noConfusion⟩

/-! ### Two majorities -/

omit [DecidableEq N] in
lemma mostVoted_snd (count : N → ℕ) (order : List N) :
    ∀ w, (mostVoted count order).1 = some w → (mostVoted count order).2 = count w := by
  unfold mostVoted
  refine List.foldlRecOn
    (motive := fun best : Option N × ℕ => ∀ w, best.1 = some w → best.2 = count w)
    order _ (by simp) fun best ih r _ => ?_
  split_ifs
  · simp
  · exact ih

/-- The votes behind a leader: those of the others alone, or with its own one. -/
lemma sentinelGetLeader_votes [Fintype N] {quorum epoch : ℕ} {order : List N} {s' : SentinelState N}
    (h : sentinelGetLeader quorum me s epoch order = (some me, s')) :
    Fintype.card N / 2 + 1 ≤ (s.votersFor me me).card ∨
      Fintype.card N / 2 + 1 ≤ (s.votersFor me me).card + 1 ∧
        s'.leader = some me ∧ s'.leaderEpoch = epoch := by
  have hbest := mostVoted_snd (fun r => (s.votersFor me r).card) order me
  simp only [sentinelGetLeader, Prod.mk.injEq, ite_none_left_eq_some, not_or, not_lt] at h
  obtain ⟨⟨⟨hmaj, -⟩, hme⟩, rfl⟩ := h
  generalize sentinelVoteLeader s epoch _ = s1 at hmaj hme ⊢
  cases hl : s1.leader with
  | none =>
    simp only [hl] at hmaj hme
    exact .inl (hbest hme ▸ hmaj)
  | some l =>
    simp only [hl, elim_some] at hmaj hme
    split_ifs at hmaj hme with hown
    · obtain rfl := some.inj hme
      exact .inr ⟨hmaj, rfl, hown.1⟩
    · exact .inl (hbest hme ▸ hmaj)

/-- Every leader had the votes of a majority in its failover epoch. -/
def SentinelSystem.Majorities [Fintype N] (sys : SentinelSystem N) : Prop :=
  ∀ p ∈ sys.elected, ∃ Q : Finset N,
    Fintype.card N < 2 * Q.card ∧ ∀ v ∈ Q, (v, p.2, p.1) ∈ sys.votes

/-- At the event the votes are counted in the epoch of the failover attempt. -/
def SentinelEvent.InEpoch (sys : SentinelSystem N) : SentinelEvent N → Prop
  | .waitStart me .. => (sys.nodes me).currentEpoch = (sys.nodes me).failoverEpoch
  | _ => True

instance (sys : SentinelSystem N) (op : SentinelEvent N) : Decidable (op.InEpoch sys) := by
  cases op <;> (dsimp only [SentinelEvent.InEpoch]; infer_instance)

/-- A Sentinel that passes the election in its current epoch has the votes of a majority. -/
lemma SentinelSystem.Majorities.step [Fintype N] {quorum : N → ℕ} {op : SentinelEvent N}
    (hmaj : sys.Majorities) (h : sys.Voting) (hop : op.InEpoch sys)
    (hstep : sentinelStep quorum sys op = some sys') : sys'.Majorities := by
  obtain ⟨me, s, net, won, rfl, ha, hwon⟩ := sentinelStep_cases hstep
  have hold : ∀ p ∈ sys.elected, ∃ Q : Finset N, Fintype.card N < 2 * Q.card ∧
      ∀ v ∈ Q, (v, p.2, p.1) ∈ (sys.act me s net won).votes := fun p hp =>
    (hmaj p hp).imp fun Q hQ => ⟨hQ.1, fun v hv => votes_subset_act (hQ.2 v hv)⟩
  cases won with
  | false => exact hold
  | true =>
    obtain ⟨order, timeout, rfl, s', hlead, hs'⟩ := hwon rfl
    refine List.forall_mem_cons.mpr ⟨?_, hold⟩
    have hothers : ∀ v ∈ (sys.nodes me).votersFor me me, v ≠ me ∧
        (v, (sys.nodes me).failoverEpoch, me) ∈ (sys.act me s net true).votes := by
      intro v hv
      simp only [SentinelState.votersFor, Finset.mem_filter] at hv
      rw [← show (sys.nodes me).currentEpoch = (sys.nodes me).failoverEpoch from hop, ← hv.2.2.2]
      exact ⟨hv.2.1, votes_subset_act (h.known me v me hv.2.2.1)⟩
    obtain hcard | ⟨hcard, hl, he⟩ := sentinelGetLeader_votes hlead
    · exact ⟨_, by omega, fun v hv => (hothers v hv).2⟩
    · rw [← hs'] at hl he
      refine ⟨insert me ((sys.nodes me).votersFor me me), ?_, ?_⟩
      · rw [Finset.card_insert_of_notMem fun hmem => (hothers me hmem).1 rfl]
        omega
      · simp only [Finset.mem_insert, forall_eq_or_imp]
        exact ⟨he ▸ own_act hl, fun v hv => (hothers v hv).2⟩

/-- In every run of any number of Sentinels no Sentinel ever holds votes for two run ids of one
epoch, and all votes in replies are such votes; and if the votes are always counted in the epoch of
the failover attempt, no two Sentinels become leaders with the same failover epoch. -/
theorem sentinel_one_leader [Fintype N] (quorum : N → ℕ) {ops : List (SentinelEvent N)}
    {sys : SentinelSystem N} (hrun : runSteps (sentinelStep quorum) {} ops = some sys) :
    (∀ v e r r', (v, e, r) ∈ sys.votes → (v, e, r') ∈ sys.votes → r = r') ∧
    (∀ v p r e, .reply v p r e ∈ sys.net → (v, e, r) ∈ sys.votes) ∧
    (RunSatisfies (sentinelStep quorum) SentinelEvent.InEpoch {} ops →
      ∀ s s' e, (s, e) ∈ sys.elected → (s', e) ∈ sys.elected → s = s') := by
  have hinit : ({} : SentinelSystem N).Voting := by constructor <;> simp
  have hstep : ∀ {sys sys' : SentinelSystem N} {op}, sys.Voting →
      sentinelStep quorum sys op = some sys' → sys'.Voting := by
    intro sys sys' op h hs
    obtain ⟨me, s, net, won, rfl, ha, -⟩ := sentinelStep_cases hs
    exact h.act ha
  have hvoting : sys.Voting := runSteps_simulation_of_some (fun a _ => a)
    (fun sys _ => sys.Voting) (fun _ _ _ _ => hstep) (a := ()) hinit hrun
  refine ⟨hvoting.unique, hvoting.replied, fun hepochs s s' e hs hs' => ?_⟩
  have hmaj : sys.Voting ∧ sys.Majorities := hepochs.invariant_of_some
    (fun sys => sys.Voting ∧ sys.Majorities)
    (fun _ _ _ hop h hs => ⟨hstep h.1 hs, h.2.step h.1 hop hs⟩) hrun
    ⟨hinit, by simp [SentinelSystem.Majorities]⟩
  obtain ⟨Q, hQ, hvotes⟩ := hmaj.2 _ hs
  obtain ⟨Q', hQ', hvotes'⟩ := hmaj.2 _ hs'
  -- two majorities share a voter
  obtain ⟨v, hv⟩ := Finset.inter_nonempty_of_card_lt_card_add_card (Finset.subset_univ Q)
    (Finset.subset_univ Q') (by rw [Finset.card_univ]; omega)
  rw [Finset.mem_inter] at hv
  exact hvoting.unique v e s s' (hvotes v hv.1) (hvotes' v hv.2)

/-- Of five Sentinels two start a failover in epoch 1, and the second one gets two more votes. -/
def electionOf1 : List (SentinelEvent (Fin 5)) :=
  [.start 0, .waitStart 0 [] false, .start 1, .waitStart 1 [] false,
    .ask 1 2, .deliver (.request 1 2 1), .deliver (.reply 2 1 1 1),
    .ask 1 3, .deliver (.request 1 3 1), .deliver (.reply 3 1 1 1), .waitStart 1 [1] false]

theorem sentinel_one_leader_epoch1 : ∃ sys,
    runSteps (sentinelStep fun _ => 3) {} electionOf1 = some sys ∧ (1, 1) ∈ sys.elected ∧
      ∀ s s' e, (s, e) ∈ sys.elected → (s', e) ∈ sys.elected → s = s' := by
  obtain ⟨sys, hsys, helected⟩ := (Option.any_eq_true (fun sys : SentinelSystem (Fin 5) =>
    decide ((1, 1) ∈ sys.elected)) (runSteps (sentinelStep fun _ => 3) {} electionOf1)).mp
      (by decide +kernel)
  exact ⟨sys, hsys, of_decide_eq_true helected,
    (sentinel_one_leader (fun _ => 3) hsys).2.2 (by decide +kernel)⟩

/-- A third Sentinel starts a failover in epoch 2, of which the first one hears: it is given the
votes of epoch 2 and goes on with its failover of epoch 1, whose leader has been elected. -/
theorem sentinel_two_leaders : (runSteps (sentinelStep fun _ => 3) {} (electionOf1 ++
    [.publish 0 4, .deliver (.hello 4 1), .start 4, .publish 4 0, .deliver (.hello 0 2),
      .ask 0 2, .deliver (.request 0 2 2), .deliver (.reply 2 0 0 2),
      .ask 0 3, .deliver (.request 0 3 2), .deliver (.reply 3 0 0 2),
      .waitStart 0 [0] false])).map SentinelSystem.elected = some [(0, 1), (1, 1)] := by
  decide +kernel

end RainCall
