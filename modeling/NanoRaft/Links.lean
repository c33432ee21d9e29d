import NanoRaft.Lib.Pairing
import NanoRaft.Registry

/-!
# Proxies and their connections

A proxy points to a connection object and the connection to a proxy; `Conn::Tie` sets both
pointers, and nothing takes one back. The links of a registry are a `Pairing`: an accept is
a new object, a close the end of one, and a handshake of the leader ends the object that it
replaces and ties the node to its connection.

* `paired_always_iff`: in which runs proxies and connections stay paired;
* `closes_own_iff`: in which runs handshakes close no other connection than the node's own.
-/

namespace NanoRaft
namespace Registry

variable {r r' : Registry}

/-! ## The links of a registry -/

/-- The links between the nodes and the connection objects. -/
def links (r : Registry) : Pairing UInt32 ConnId where
  ref := r.ref
  side o := if o.gen = r.gen o.fd then (r.server.conns.find? o.fd).map Conn.proxy else none

theorem side_links {o : ConnId} {y : Option UInt32} :
    r.links.side o = some y ↔ r.Live o ∧ r.server.tiedTo o.fd = y := by
  show (if o.gen = r.gen o.fd then _ else _) = some y ↔ _
  rw [Live, RaftServer.tiedTo]
  cases hc : r.server.conns.find? o.fd with
  | none => simp
  | some c =>
    by_cases hgen : o.gen = r.gen o.fd
    · simp [hgen]
    · simp [hgen]

/-- The objects left after the handshake has closed the connection it replaces. -/
def replacedLinks (r : Registry) (fd : ℕ) (q : HandshakeQ) : Pairing UInt32 ConnId :=
  match r.server.replaced fd q with
  | some old => r.links.drop (r.object old)
  | none => r.links

/-- An accept is a new object. -/
theorem links_accept {fd : ℕ} (addr : Bytes) (hnone : r.server.conns.find? fd = none) :
    links { r with
      server := r.server.accept fd addr
      isOpen := Function.update r.isOpen fd true
      gen := Function.update r.gen fd (r.gen fd + 1) } = r.links.add ⟨fd, r.gen fd + 1⟩ := by
  refine Pairing.ext rfl (funext fun o => ?_)
  rw [Pairing.side_add]
  show (if o.gen = Function.update r.gen fd (r.gen fd + 1) o.fd then
    ((r.server.conns.insert fd _).find? o.fd).map Conn.proxy else none) = _
  rw [Function.update_apply, OrdMap.find?_insert]
  obtain ⟨k, g⟩ := o
  by_cases hk : k = fd
  · subst hk
    by_cases hg : g = r.gen k + 1
    · simp [hg]
    · simp [hg, links, hnone]
  · simp [hk, links]

/-- A close is the end of the object. -/
theorem links_close (r : Registry) (fd : ℕ) :
    links { r with
      server := { r.server with conns := r.server.conns.erase fd }
      isOpen := Function.update r.isOpen fd false } = r.links.drop (r.object fd) := by
  refine Pairing.ext rfl (funext fun o => ?_)
  rw [Pairing.side_drop]
  show (if o.gen = r.gen o.fd then ((r.server.conns.erase fd).find? o.fd).map Conn.proxy
    else none) = _
  rw [OrdMap.find?_erase]
  obtain ⟨k, g⟩ := o
  by_cases hk : k = fd
  · subst hk
    by_cases hg : g = r.gen k
    · simp [hg, object]
    · simp [hg, object, links]
  · simp [hk, links, object]

/-- A leader's handshake ends the object it replaces and ties the node to the connection. -/
theorem links_handshaken {puts : Puts} {fd : ℕ} {q : HandshakeQ} {c : Conn} {s : RaftServer}
    {ms : Sends} (hc : r.server.conns.find? fd = some c) (hlead : r.server.role = .Leader)
    (hs : r.server.handshakeQ puts fd q = .ok (s, ms)) :
    (r.handshaken fd q s).links = (r.replacedLinks fd q).tie q.nodeid (r.object fd) := by
  obtain ⟨_, _, hconns⟩ := handshakeQ_links hc hlead hs
  refine Pairing.ext (funext fun x => ?_) (funext fun o => ?_)
  · have href : (r.replacedLinks fd q).ref = r.ref := by
      rw [replacedLinks]
      cases r.server.replaced fd q with
      | none => rfl
      | some old => rfl
    rw [Pairing.ref_tie, href]
    show (r.handshaken fd q s).ref x = _
    rw [ref_handshaken]
    simp [hlead]
  · rw [Pairing.side_tie]
    show (if o.gen = r.gen o.fd then (s.conns.find? o.fd).map Conn.proxy else none) = _
    rw [hconns, replacedLinks]
    obtain ⟨k, g⟩ := o
    by_cases hk : k = fd
    · subst hk
      by_cases hg : g = r.gen k
      · simp [hg, object]
      · cases hrep : r.server.replaced k q with
        | none => simp [hg, object, links]
        | some old =>
          rw [Pairing.side_drop]
          simp [hg, object, links]
    · cases hrep : r.server.replaced fd q with
      | none => simp [hk, object, links]
      | some old =>
        rw [Pairing.side_drop]
        by_cases hko : k = old
        · subst hko
          by_cases hg : g = r.gen k
          · simp [hg, hk, object]
          · simp [hg, hk, object, links]
        · simp [hk, hko, Ne.symm hko, object, links]

/-! ## One to one -/

/-- A live connection is referred to by one proxy at most, and by the proxy of the node it is
tied to. -/
structure OneToOne (r : Registry) : Prop where
  unique : ∀ o x y, r.Live o → r.ref x = some o → r.ref y = some o → x = y
  tied : ∀ o x, r.Live o → r.ref x = some o → r.server.tiedTo o.fd = some x

theorem oneToOne_iff : r.OneToOne ↔ r.links.Paired := by
  constructor
  · intro h x o y hx ho
    obtain ⟨hlive, htied⟩ := side_links.mp ho
    rw [← htied]
    exact h.tied o x hlive hx
  · intro h
    refine ⟨fun o x y hlive hx hy => ?_, fun o x hlive hx => ?_⟩
    · exact h.unique hx hy (side_links.mpr ⟨hlive, rfl⟩)
    · exact h x o _ hx (side_links.mpr ⟨hlive, rfl⟩)

/-- A reply that counts, on the connection to which a proxy sends, counts for the node of that
proxy and for no other. -/
def CountsForAddressee (r : Registry) : Prop :=
  ∀ x ms fd m reply, r.sendAppendEntries x = .ok ms → (fd, m) ∈ ms →
    AppendEntriesR.counts reply = true →
      ∀ y, (r.server.countReply fd reply).proxys.find? y =
        if y = x then (r.server.proxys.find? x).map fun p => { p with
          matchIndex := p.matchIndex + 1, nextIndex := p.nextIndex + 1 }
        else r.server.proxys.find? y

/-- A handshake comes on a connection on which no other node has presented itself. -/
def OneNode (r : Registry) : RegistryEvent → Prop
  | .handshake _ fd q => ∀ x, r.server.tiedTo fd = some x → x = q.nodeid
  | _ => True

instance decidableOneNode (r : Registry) : (e : RegistryEvent) → Decidable (r.OneNode e)
  | .handshake _ fd q =>
    decidable_of_iff (r.server.tiedTo fd = none ∨ r.server.tiedTo fd = some q.nodeid) (by
      show _ ↔ ∀ x, r.server.tiedTo fd = some x → x = q.nodeid
      cases r.server.tiedTo fd with
      | none => simp
      | some x => simp)
  | .accept _ _ => isTrue trivial
  | .close _ => isTrue trivial

/-- A proxy sends on its own connection. -/
theorem sendAppendEntries_mem {x : UInt32} {ms : Sends} {fd : ℕ} {m : Message}
    (h : r.sendAppendEntries x = .ok ms) (hm : (fd, m) ∈ ms) :
    ∃ o, r.ref x = some o ∧ r.Live o ∧ o.fd = fd := by
  rw [sendAppendEntries] at h
  cases href : r.ref x with
  | none =>
    rw [href] at h
    rw [← Except.ok.inj h] at hm
    cases hm
  | some o =>
    rw [href] at h
    dsimp only at h
    split_ifs at h with hlive
    · refine ⟨o, rfl, hlive, ?_⟩
      unfold RaftServer.connSendAppendEntries at h
      split at h
      · rw [← Except.ok.inj h] at hm
        cases hm
      · split at h
        · rw [← Except.ok.inj h] at hm
          cases hm
        · obtain ⟨_, _, h⟩ := Except.bind_eq_ok.mp h
          rw [Except.pure_eq_ok] at h
          rw [← h, List.mem_singleton, Prod.mk.injEq] at hm
          exact hm.1.symm
    · rw [← Except.ok.inj h] at hm
      cases hm

theorem OneToOne.countsForAddressee (h : r.OneToOne) : r.CountsForAddressee := by
  intro x ms fd m reply hsend hm hcounts y
  obtain ⟨o, href, hlive, hfd⟩ := sendAppendEntries_mem hsend hm
  have htied := h.tied o x hlive href
  rw [hfd] at htied
  rw [RaftServer.countReply_proxys, htied]
  by_cases hy : y = x
  · rw [if_pos ⟨hcounts, by rw [hy]⟩, if_pos hy, hy]
  · rw [if_neg fun h => hy (Option.some.inj h.2).symm, if_neg hy]

/-- What holds of the links in every run of the leader: the node a connection is tied to refers
to it, and a connection that is referred to is tied. -/
structure Linked (r : Registry) : Prop where
  wf : r.Wf
  leader : r.server.role = .Leader
  owned : r.links.Owned
  touched : r.links.Touched

/-- The connection a handshake comes on is still there after the replaced one is gone. -/
theorem side_replacedLinks {fd : ℕ} {q : HandshakeQ} {c : Conn}
    (hc : r.server.conns.find? fd = some c) :
    (r.replacedLinks fd q).side (r.object fd) = some (r.server.tiedTo fd) := by
  have hlive : r.Live (r.object fd) := ⟨rfl, by rw [object, hc]; rfl⟩
  have hside : r.links.side (r.object fd) = some (r.server.tiedTo fd) :=
    side_links.mpr ⟨hlive, rfl⟩
  rw [replacedLinks]
  cases hrep : r.server.replaced fd q with
  | none => exact hside
  | some old =>
    have hne : r.object fd ≠ r.object old := fun heq =>
      (RaftServer.replaced_eq_some.mp hrep).2.2 (congrArg ConnId.fd heq).symm
    show (r.links.drop _).side _ = _
    rw [Pairing.side_drop, if_neg hne]
    exact hside

/-- No other connection is tied to the node any more. -/
theorem Linked.other_side (h : r.Linked) {fd : ℕ} {q : HandshakeQ} {o : ConnId}
    (hne : o ≠ r.object fd) : (r.replacedLinks fd q).side o ≠ some (some q.nodeid) := by
  intro hside
  have hlinks : r.links.side o = some (some q.nodeid) := by
    rw [replacedLinks] at hside
    cases hrep : r.server.replaced fd q with
    | none =>
      rw [hrep] at hside
      exact hside
    | some old =>
      rw [hrep] at hside
      change (r.links.drop _).side o = _ at hside
      rw [Pairing.side_drop] at hside
      split_ifs at hside
      exact hside
  -- the proxy refers to that connection, so its number is the one replaced
  obtain ⟨⟨hgen, _⟩, _⟩ := side_links.mp hlinks
  have hobj : o = r.object o.fd := by
    rw [object, ← hgen]
  have hfd : o.fd ≠ fd := fun heq => hne (by rw [hobj, heq])
  have hnum : r.server.proxyConnFd q.nodeid = some o.fd := by
    rw [h.wf.number, show r.ref q.nodeid = some o from h.owned _ _ hlinks]
    rfl
  have hrep := RaftServer.replaced_eq_some.mpr ⟨h.leader, hnum, hfd⟩
  rw [replacedLinks, hrep] at hside
  change (r.links.drop _).side o = _ at hside
  rw [Pairing.side_drop, if_pos hobj] at hside
  cases hside

/-- Ending the replaced connection keeps whatever ending a connection keeps. -/
theorem replacedLinks_of_drop {P : Pairing UInt32 ConnId → Prop} {fd : ℕ} {q : HandshakeQ}
    (hdrop : ∀ o, P (r.links.drop o)) (h : P r.links) : P (r.replacedLinks fd q) := by
  rw [replacedLinks]
  cases r.server.replaced fd q with
  | none => exact h
  | some old => exact hdrop _

/-- The number that an accept gives out was not registered, and no proxy refers to the new
object. -/
theorem Wf.fresh {fd : ℕ} (h : r.Wf) (hclosed : r.isOpen fd = false) :
    r.server.conns.find? fd = none ∧ ∀ x, r.ref x ≠ some ⟨fd, r.gen fd + 1⟩ := by
  constructor
  · rw [h.isOpen, Option.isSome_eq_false_iff] at hclosed
    exact Option.isNone_iff_eq_none.mp hclosed
  · intro x hx
    have hle := h.past x _ hx
    change r.gen fd + 1 ≤ r.gen fd at hle
    omega

theorem linked_next {e : RegistryEvent} (h : r.Linked) (hn : r.next e = some r') :
    r'.Linked := by
  have hwf := wf_next h.wf hn
  rcases next_cases hn with ⟨fd, addr, _, hclosed, rfl⟩ | ⟨fd, _, rfl⟩ |
    ⟨puts, fd, q, c, s, ms, _, hc, hs, rfl⟩
  · obtain ⟨hnone, hfresh⟩ := h.wf.fresh hclosed
    have hlinks := links_accept addr hnone
    exact ⟨hwf, h.leader, by rw [hlinks]; exact h.owned.add,
      by rw [hlinks]; exact h.touched.add hfresh⟩
  · exact ⟨hwf, h.leader, by rw [links_close]; exact h.owned.drop _,
      by rw [links_close]; exact h.touched.drop _⟩
  · have hlinks := links_handshaken hc h.leader hs
    refine ⟨hwf, (handshakeQ_links hc h.leader hs).1, ?_, ?_⟩
    · rw [hlinks]
      exact (replacedLinks_of_drop h.owned.drop h.owned).tie fun o hne => h.other_side hne
    · rw [hlinks]
      exact (replacedLinks_of_drop h.touched.drop h.touched).tie _ _

/-- **One event.** Whether the pairing survives a handshake is told by the connection it
comes on. -/
theorem oneToOne_next_iff {e : RegistryEvent} (h : r.Linked) (hp : r.OneToOne)
    (hn : r.next e = some r') : r'.OneToOne ↔ r.OneNode e := by
  rw [oneToOne_iff] at hp ⊢
  rcases next_cases hn with ⟨fd, addr, rfl, hclosed, rfl⟩ | ⟨fd, rfl, rfl⟩ |
    ⟨puts, fd, q, c, s, ms, rfl, hc, hs, rfl⟩
  · obtain ⟨hnone, hfresh⟩ := h.wf.fresh hclosed
    rw [links_accept addr hnone]
    exact iff_of_true (hp.add hfresh) trivial
  · rw [links_close]
    exact iff_of_true (hp.drop _) trivial
  · rw [links_handshaken hc h.leader hs]
    exact Pairing.paired_tie_iff (replacedLinks_of_drop hp.drop hp)
      (replacedLinks_of_drop h.owned.drop h.owned) (side_replacedLinks hc)

theorem linked_of_started (h : r.Started) : r.Linked ∧ r.OneToOne := by
  have hlead := leader_of_leading (System.reachable_init (C := System.anyStep) (S := leading) h)
  have hwf := wf_of_init (Or.inl h)
  refine ⟨⟨hwf, hlead, fun x o ho => ?_, fun x o hx => ?_⟩, ?_⟩
  · -- there is no connection yet
    obtain ⟨⟨_, hthere⟩, _⟩ := side_links.mp ho
    rw [← hwf.isOpen, h.2.1] at hthere
    cases hthere
  · change r.ref x = some o at hx
    rw [h.2.2] at hx
    cases hx
  · have href := h.2.2
    refine ⟨fun o x y _ hx _ => ?_, fun o x _ hx => ?_⟩
    · rw [href] at hx
      cases hx
    · rw [href] at hx
      cases hx

theorem linked_of_leading {C : Registry → RegistryEvent → Prop} (h : leading.Reachable C r) :
    r.Linked :=
  h.invariant (I := Linked) (fun _ hi => (linked_of_started hi).1)
    fun _ _ _ _ hl _ hn => linked_next hl hn

/-- **Paired.** In a run of the leader proxies and connections stay paired one to one, and
every reply counts for the node that was addressed, if and only if no handshake comes on a
connection on which another node has presented itself. -/
theorem paired_always_iff {t : Registry} {es : List RegistryEvent} (hinit : r.Started)
    (hrun : leading.run r es = some t) :
    (∀ bs u, bs <+: es → leading.run r bs = some u → u.OneToOne ∧ u.CountsForAddressee) ↔
      leading.Allowed OneNode r es := by
  obtain ⟨hlinked, hpaired⟩ := linked_of_started hinit
  rw [System.allowed_iff_always (K := Linked) (P := OneToOne)
    (fun r e r' hl hp hn => ⟨oneToOne_next_iff hl hp hn, fun _ => linked_next hl hn⟩)
    es hlinked hpaired hrun]
  constructor
  · intro hall bs u hbs hu
    exact (hall bs u hbs hu).1
  · intro hall bs u hbs hu
    have hp := hall bs u hbs hu
    exact ⟨hp, hp.countsForAddressee⟩

/-- Two nodes join, each on a connection of its own. -/
theorem paired_always_two : ∃ t : Registry, t.OneToOne ∧ t.server.tiedTo 6 = some 3 := by
  have hrun : ((leading.run launched [.accept 5 [], .accept 6 [], hello 5 2, hello 6 3]).any
      fun t : Registry => decide (t.server.tiedTo 6 = some 3)) = true := by decide +kernel
  obtain ⟨t, ht, htied⟩ := (Option.any_eq_true _ _).mp hrun
  have hall := (paired_always_iff started_launched ht).mpr (by decide +kernel)
  exact ⟨t, (hall _ t (List.prefix_refl _) ht).1, of_decide_eq_true htied⟩

/-- Two nodes present themselves on one connection: both proxies refer to it. -/
theorem paired_twice : ¬ ∀ r, leading.Reachable System.anyStep r → r.OneToOne := by
  intro hall
  obtain ⟨r, hr, hp⟩ := System.exists_of_run [.accept 5 [], hello 5 2, hello 5 3]
    (fun r : Registry => decide (r.Live ⟨5, 1⟩) && decide (r.ref 2 = some ⟨5, 1⟩) &&
      decide (r.ref 3 = some ⟨5, 1⟩))
    (System.reachable_init (S := leading) started_launched)
    (System.allowed_anyStep _ _) (by decide +kernel)
  simp only [Bool.and_eq_true, decide_eq_true_iff] at hp
  obtain ⟨⟨hlive, h2⟩, h3⟩ := hp
  exact absurd ((hall r hr).unique _ 2 3 hlive h2 h3) (by decide)

/-! ## Closing another node's connection -/

/-- The connections that an event ends are the one most recently tied to the proxy of node `x`,
while that is still there and tied to no other node. -/
def ClosesOnly (x : UInt32) (r r' : Registry) : Prop :=
  ∀ o, r.Live o → ¬ r'.Live o → r.ref x = some o ∧ r.server.tiedTo o.fd = some x

/-- What a handshake closes: the number that is passed to `Server_CloseConn` is open, so that
`OfflineConn` finds its connection, and that is the node's own. -/
structure ClosesOwn (r : Registry) (puts : Puts) (fd : ℕ) (q : HandshakeQ) : Prop where
  isOpen : ∀ old, r.server.replaced fd q = some old → r.isOpen old = true
  found : r.handle (.handshake puts fd q) ≠ .error .eraseEnd
  own : ∀ r', r.handle (.handshake puts fd q) = .ok r' → ClosesOnly q.nodeid r r'

/-- If the proxy of the node remembers another number: that number is open, it has not been
given out again since the node's last handshake, and no other node has presented itself on that
connection. -/
def OldIsOwn (r : Registry) (fd : ℕ) (q : HandshakeQ) : Prop :=
  ∀ o, r.ref q.nodeid = some o → o.fd ≠ fd →
    r.isOpen o.fd = true ∧ r.gen o.fd = o.gen ∧ ∀ x, r.server.tiedTo o.fd = some x → x = q.nodeid

/-- What is not live any more after a handshake. -/
theorem not_live_handshaken {puts : Puts} {fd : ℕ} {q : HandshakeQ} {c : Conn} {s : RaftServer}
    {ms : Sends} (hc : r.server.conns.find? fd = some c)
    (hs : r.server.handshakeQ puts fd q = .ok (s, ms)) {o : ConnId} (ho : r.Live o) :
    ¬ (r.handshaken fd q s).Live o ↔ r.server.replaced fd q = some o.fd := by
  have hlive : (r.handshaken fd q s).Live o ↔ (s.conns.find? o.fd).isSome :=
    and_iff_right ho.1
  rw [hlive, handshakeQ_registered hc hs, ho.2]
  simp

instance decidableOldIsOwn (r : Registry) (fd : ℕ) (q : HandshakeQ) :
    Decidable (r.OldIsOwn fd q) :=
  decidable_of_iff (((r.ref q.nodeid).all fun o => decide (o.fd = fd) ||
      (r.isOpen o.fd && decide (r.gen o.fd = o.gen) &&
        (r.server.tiedTo o.fd).all (· = q.nodeid))) = true) (by
    rw [OldIsOwn]
    cases r.ref q.nodeid with
    | none => simp
    | some o => simp [or_iff_not_imp_left, Option.all_eq_true, and_assoc])

/-- A handshake that comes back is one of the server. -/
theorem handle_handshake_eq_ok {puts : Puts} {fd : ℕ} {q : HandshakeQ}
    (h : r.handle (.handshake puts fd q) = .ok r') :
    ∃ s ms, r.server.handshakeQ puts fd q = .ok (s, ms) ∧ r' = r.handshaken fd q s := by
  obtain ⟨⟨s, ms⟩, hs, h⟩ := Except.bind_eq_ok.mp h
  rw [Except.pure_eq_ok] at h
  exact ⟨s, ms, hs, h.symm⟩

theorem handle_handshake_of_ok {puts : Puts} {fd : ℕ} {q : HandshakeQ} {s : RaftServer}
    {ms : Sends} (hs : r.server.handshakeQ puts fd q = .ok (s, ms)) :
    r.handle (.handshake puts fd q) = .ok (r.handshaken fd q s) := by
  rw [handle, hs]
  rfl

/-- The object that the remembered number means, when it means the one the proxy refers to. -/
theorem object_of_gen {o : ConnId} (hgen : r.gen o.fd = o.gen) : r.object o.fd = o := by
  rw [object, hgen]

/-- In every state of a leader, a handshake closes no connection but the open one most recently
tied to the node's proxy if and only if that proxy's number is open and still means that
connection, and no other node has presented itself there. -/
theorem closesOwn_iff (hl : r.Linked) {puts : Puts} {fd : ℕ} {q : HandshakeQ}
    (hen : r.enabled (.handshake puts fd q)) : r.ClosesOwn puts fd q ↔ r.OldIsOwn fd q := by
  obtain ⟨c, hc⟩ := Option.isSome_iff_exists.mp hen
  constructor
  · intro hcloses o href hne
    have hnum : r.server.proxyConnFd q.nodeid = some o.fd := by
      rw [hl.wf.number, href]
      rfl
    have hrep := RaftServer.replaced_eq_some.mpr ⟨hl.leader, hnum, hne⟩
    have hopen := hcloses.isOpen _ hrep
    have hthere : (r.server.conns.find? o.fd).isSome := by
      rw [← hl.wf.isOpen]
      exact hopen
    -- so the handler comes back, and the connection of that number is gone
    obtain ⟨s, ms, hs⟩ := RaftServer.handshakeQ_of_found puts hc hl.leader hnum fun _ => hthere
    have hlive : r.Live (r.object o.fd) := ⟨rfl, hthere⟩
    obtain ⟨hown, htied⟩ := hcloses.own _ (handle_handshake_of_ok hs) _ hlive
      ((not_live_handshaken hc hs hlive).mpr hrep)
    rw [href] at hown
    refine ⟨hopen, (congrArg ConnId.gen (Option.some.inj hown)).symm, fun x hx => ?_⟩
    change r.server.tiedTo o.fd = _ at htied
    rw [htied] at hx
    exact (Option.some.inj hx).symm
  · intro hown
    -- the number that is passed to `Server_CloseConn` is that of the proxy's connection
    have hold : ∀ old, r.server.replaced fd q = some old → ∃ o, r.ref q.nodeid = some o ∧
        o.fd = old ∧ r.isOpen old = true ∧ r.object old = o ∧
        ∀ x, r.server.tiedTo old = some x → x = q.nodeid := by
      intro old hrep
      obtain ⟨_, hnum, hne⟩ := RaftServer.replaced_eq_some.mp hrep
      rw [hl.wf.number] at hnum
      obtain ⟨o, href, rfl⟩ := Option.map_eq_some_iff.mp hnum
      obtain ⟨hopen, hgen, htied⟩ := hown o href hne
      exact ⟨o, href, rfl, hopen, object_of_gen hgen, htied⟩
    refine ⟨fun old hrep => ?_, ?_, fun r' hr' o hlive hdead => ?_⟩
    · obtain ⟨_, _, _, hopen, _⟩ := hold old hrep
      exact hopen
    · rw [ne_eraseEnd_iff hl.wf hen]
      intro old hlead hnum hne
      obtain ⟨_, _, _, hopen, _⟩ := hold old (RaftServer.replaced_eq_some.mpr ⟨hlead, hnum, hne⟩)
      exact hopen
    · obtain ⟨s, ms, hs, rfl⟩ := handle_handshake_eq_ok hr'
      have hrep := (not_live_handshaken hc hs hlive).mp hdead
      obtain ⟨o', href, _, _, hobj, htied⟩ := hold o.fd hrep
      -- the object registered under the number is the one the proxy refers to
      obtain rfl : o = o' := by rw [← hobj, object, ← hlive.1]
      refine ⟨href, ?_⟩
      cases ht : r.server.tiedTo o.fd with
      | none => exact absurd (side_links.mpr ⟨hlive, ht⟩) (hl.touched _ o href)
      | some x => rw [htied x ht]

/-- A handshake replaces a connection of its own node, if any. -/
def ReplacesOwn (r : Registry) : RegistryEvent → Prop
  | .handshake _ fd q => r.OldIsOwn fd q
  | _ => True

instance decidableReplacesOwn (r : Registry) : (e : RegistryEvent) → Decidable (r.ReplacesOwn e)
  | .handshake _ fd q => decidableOldIsOwn r fd q
  | .accept _ _ => isTrue trivial
  | .close _ => isTrue trivial

/-- **Only its own.** In a run of callbacks that the kernel and the messages can cause, every
handshake of the leader closes no connection but the open one most recently tied to its node's
proxy if and only if every handshake finds what that proxy remembers to be open and its own. -/
theorem closes_own_iff {es : List RegistryEvent} (hinit : r.Started)
    (hen : leading.Allowed (fun r e => r.enabled e = true) r es) :
    (∀ bs puts fd q u, bs ++ [.handshake puts fd q] <+: es → leading.run r bs = some u →
      u.ClosesOwn puts fd q) ↔ leading.Allowed ReplacesOwn r es := by
  rw [System.allowed_iff_forall] at hen ⊢
  have hstep : ∀ bs puts fd q u, bs ++ [.handshake puts fd q] <+: es →
      leading.run r bs = some u → (u.ClosesOwn puts fd q ↔ u.OldIsOwn fd q) := by
    intro bs puts fd q u hbs hu
    refine closesOwn_iff (linked_of_leading (C := System.anyStep) ?_) (hen bs _ u hbs hu)
    exact System.reachable_in_run (System.reachable_init hinit) (System.allowed_anyStep es r)
      ((List.prefix_append bs [.handshake puts fd q]).trans hbs) hu
  constructor
  · intro hall bs e u hbs hu
    cases e with
    | handshake puts fd q => exact (hstep bs puts fd q u hbs hu).mp (hall bs puts fd q u hbs hu)
    | accept | close => trivial
  · intro hall bs puts fd q u hbs hu
    exact (hstep bs puts fd q u hbs hu).mpr (hall bs _ u hbs hu)

/-- Node 2 comes back while its first connection is still there, which is closed. -/
theorem closes_own_two : ∃ t : Registry, leading.run launched comesBack = some t ∧
    ¬ t.Live ⟨5, 1⟩ ∧
    ∀ bs puts fd q u, bs ++ [.handshake puts fd q] <+: comesBack →
      leading.run launched bs = some u → u.ClosesOwn puts fd q := by
  have hrun : ((leading.run launched comesBack).any fun t : Registry =>
      decide (¬ t.Live ⟨5, 1⟩)) = true := by decide +kernel
  obtain ⟨t, ht, hdead⟩ := (Option.any_eq_true _ _).mp hrun
  exact ⟨t, ht, of_decide_eq_true hdead,
    (closes_own_iff started_launched (by decide +kernel)).mpr (by decide +kernel)⟩

/-- The number of node 2's first connection has gone to node 3, and node 2 comes back. -/
theorem closes_other : ¬ ∀ r, leading.Reachable System.anyStep r → ∀ puts fd q,
    r.enabled (.handshake puts fd q) = true → r.ClosesOwn puts fd q := by
  intro hall
  obtain ⟨r, hr, hp⟩ := System.exists_of_run
    [.accept 5 [], hello 5 2, .close 5, .accept 5 [], hello 5 3, .accept 6 []]
    (fun r : Registry => decide (r.Live ⟨5, 2⟩) && decide (r.ref 2 = some ⟨5, 1⟩) &&
      r.enabled (hello 6 2) &&
      (r.handle (hello 6 2)).toOption.any fun r' : Registry => decide (¬ r'.Live ⟨5, 2⟩))
    (System.reachable_init (S := leading) started_launched)
    (System.allowed_anyStep _ _) (by decide +kernel)
  simp only [Bool.and_eq_true, decide_eq_true_iff] at hp
  obtain ⟨⟨⟨hlive, href⟩, hen⟩, hnext⟩ := hp
  obtain ⟨r', hr', hdead⟩ := (Option.any_eq_true _ _).mp hnext
  rw [Except.toOption_eq_some] at hr'
  obtain ⟨hown, _⟩ := (hall r hr _ _ _ hen).own r' hr' ⟨5, 2⟩ hlive (of_decide_eq_true hdead)
  have h5 : (⟨5, 1⟩ : ConnId) = ⟨5, 2⟩ := Option.some.inj (href.symm.trans hown)
  exact absurd h5 (by decide)

end Registry
end NanoRaft
