import Sometest.Lib.Index
import Sometest.Lib.Run

/-! The connections of the epoll server under reuse of descriptors: the map
`connections_` and the epoll sets are keyed by the number of a socket, which belongs to
another connection as soon as `accept` returns it again. -/
namespace Sometest.Epoll

/-- The connection for which each open descriptor was accepted, and the `data.ptr` that
each epoll instance has for a descriptor. -/
structure Os where
  owner : Nat → Option Nat
  registered : Nat × Nat → Option Nat

namespace Os

def start : Os := ⟨fun _ => none, fun _ => none⟩

/-- `accept` returns a descriptor that is not open. -/
def accept (os : Os) (fd ptr : Nat) : Option Os :=
  if os.owner fd = none then some { os with owner := Function.update os.owner fd (some ptr) } else none

/-- `close` also drops the registrations of the descriptor. -/
def close (os : Os) (fd : Nat) : Os where
  owner := Function.update os.owner fd none
  registered := fun key => if key.2 = fd then none else os.registered key

def setPtr (os : Os) (ep fd : Nat) (ptr : Option Nat) : Os :=
  { os with registered := Function.update os.registered (ep, fd) ptr }

/-- `EPOLL_CTL_ADD` of an open descriptor that the instance does not have. -/
def ctlAdd (os : Os) (ep fd ptr : Nat) : Os × Bool :=
  if os.owner fd ≠ none ∧ os.registered (ep, fd) = none then (os.setPtr ep fd (some ptr), true)
  else (os, false)

def ctlMod (os : Os) (ep fd ptr : Nat) : Os × Bool :=
  if os.registered (ep, fd) ≠ none then (os.setPtr ep fd (some ptr), true) else (os, false)

def ctlDel (os : Os) (ep fd : Nat) : Os × Bool :=
  if os.registered (ep, fd) ≠ none then (os.setPtr ep fd none, true) else (os, false)

end Os

/-- After `accept`, after `addConnection`, and after each step of `Close`. -/
inductive Phase where
  | accepted
  | added
  | closed
  | removed
  | killed
  deriving DecidableEq

/-- A `CTcpConnection`, as far as the registry is concerned. -/
structure Peer where
  socket : Nat
  epollFd : Nat
  phase : Phase

/-- `peers` are the connection objects by their address. -/
structure Registry where
  os : Os
  connections : Nat → Option Nat
  iocpIndex : Nat
  peers : Nat → Option Peer

namespace Registry

def start : Registry := ⟨.start, fun _ => none, 0, fun _ => none⟩

def setPeer (r : Registry) (c : Nat) (peer : Peer) : Registry :=
  { r with peers := Function.update r.peers c (some peer) }

/-- `insert` of a `std::map` keeps the entry that a key has. -/
def insert (r : Registry) (fd c : Nat) : Registry :=
  if r.connections fd = none then
    { r with connections := Function.update r.connections fd (some c) }
  else r

def erase (r : Registry) (fd : Nat) : Registry :=
  { r with connections := Function.update r.connections fd none }

def addConnection (epollFdVec : List Nat) (r : Registry) (c : Nat) (peer : Peer) : Registry :=
  let epollFd := epollFdVec.getD (r.iocpIndex % epollFdVec.length) 0
  let r := r.insert peer.socket c
  let r := { r with
    iocpIndex := r.iocpIndex + 1
    os := (r.os.ctlAdd epollFd peer.socket c).1 }
  r.setPeer c { peer with epollFd, phase := .added }

def closeSocket (r : Registry) (c : Nat) (peer : Peer) : Registry :=
  { r with os := r.os.close peer.socket }.setPeer c { peer with phase := .closed }

def removeConnection (r : Registry) (c : Nat) (peer : Peer) : Registry :=
  ({ r with os := (r.os.ctlDel peer.epollFd peer.socket).1 }.erase peer.socket).setPeer c
    { peer with phase := .removed }

def doPushSend (r : Registry) (rearms : Bool) (c : Nat) (peer : Peer) : Registry :=
  if rearms then { r with os := (r.os.ctlMod peer.epollFd peer.socket c).1 } else r

end Registry

/-- `rearms` says whether `doPushSend` finds the flag set and gets the lock; the pass
comes to a connection by its key in the map. -/
inductive RegistryEvent where
  | accept (c fd : Nat)
  | addConnection (c : Nat)
  | closeSocket (c : Nat)
  | removeConnection (c : Nat)
  | kill (c : Nat)
  | doPushSend (fd : Nat) (rearms : Bool)

def Registry.at (r : Registry) (c : Nat) (phase : Phase) : Option Peer :=
  (r.peers c).filter fun peer => peer.phase = phase

/-- No outcome for an event that cannot occur. -/
def registryStep (epollFdVec : List Nat) (r : Registry) : RegistryEvent → Option Registry
  | .accept c fd =>
    if (r.peers c).isNone then
      (r.os.accept fd c).map fun os => { r with os }.setPeer c ⟨fd, 0, .accepted⟩
    else none
  | .addConnection c => (r.at c .accepted).map (r.addConnection epollFdVec c)
  | .closeSocket c => (r.at c .added).map (r.closeSocket c)
  | .removeConnection c => (r.at c .closed).map (r.removeConnection c)
  | .kill c => (r.at c .removed).map fun peer => r.setPeer c { peer with phase := .killed }
  | .doPushSend fd rearms =>
    (r.connections fd).bind fun c => (r.peers c).map (r.doPushSend rearms c)

/-- Connections that are added and not yet closed are in the map and in their epoll set
under their own socket, and every registration is that of the open connection that owns
the descriptor. -/
structure Consistent (r : Registry) : Prop where
  present : ∀ c peer, r.peers c = some peer → peer.phase = .added →
    r.connections peer.socket = some c ∧ r.os.registered (peer.epollFd, peer.socket) = some c
  owned : ∀ ep fd c, r.os.registered (ep, fd) = some c → r.os.owner fd = some c

/-- The condition on a step: a connection is added while no other one with its
descriptor is between `close(socket_)` and `removeConnection`. -/
def Vacated (r : Registry) (e : RegistryEvent) : Prop :=
  ∀ c peer, e = .addConnection c → r.peers c = some peer →
    ∀ c' peer', r.peers c' = some peer' → peer'.phase = .closed → peer'.socket ≠ peer.socket

def Peer.Open (peer : Peer) : Prop := peer.phase = .accepted ∨ peer.phase = .added

/-- The connection has its entry in the map. -/
def Peer.Listed (peer : Peer) : Prop := peer.phase = .added ∨ peer.phase = .closed

def Peer.Watched (peer : Peer) : Prop := peer.phase = .added

/-- All three maps follow the phases of the connections. -/
structure Orderly (r : Registry) : Prop where
  owner : Indexes r.peers Peer.socket Peer.Open r.os.owner
  listed : Indexes r.peers Peer.socket Peer.Listed r.connections
  watched : Indexes r.peers (fun peer => (peer.epollFd, peer.socket)) Peer.Watched r.os.registered

theorem Orderly.consistent {r : Registry} (orderly : Orderly r) : Consistent r where
  present := by
    intro c peer found added
    constructor
    · exact orderly.listed.found found (.inl added)
    · exact orderly.watched.found found added
  owned := by
    intro ep fd c registered
    obtain ⟨peer, found, key, added⟩ := (orderly.watched _ _).mp registered
    obtain ⟨-, rfl⟩ := Prod.mk.inj key
    exact orderly.owner.found found (.inr added)

theorem orderly_start : Orderly .start := by
  constructor <;> simp [Registry.start, Os.start, Indexes]

section Steps
variable {epollFdVec : List Nat} {r r' : Registry} {e : RegistryEvent} {c : Nat} {peer : Peer}

theorem at_eq_some {phase : Phase} :
    r.at c phase = some peer ↔ r.peers c = some peer ∧ peer.phase = phase := by
  rw [Registry.at, Option.filter_eq_some_iff, decide_eq_true_iff]

theorem Orderly.accept (orderly : Orderly r) {fd : Nat}
    (stepped : registryStep epollFdVec r (.accept c fd) = some r') : Orderly r' := by
  rw [registryStep] at stepped
  split at stepped
  · rename_i fresh
    obtain ⟨os, accepted, same⟩ := Option.map_eq_some_iff.mp stepped
    cases same
    rw [Os.accept] at accepted
    split at accepted
    · rename_i free
      cases accepted
      have new : r.peers c = none := Option.isNone_iff_eq_none.mp fresh
      have nobody : ∀ {selected : Peer → Prop} peer, r.peers c = some peer → ¬ selected peer := by
        intro selected peer found
        cases new.symm.trans found
      constructor
      · exact orderly.owner.select nobody (.inl rfl) free
      · exact orderly.listed.skip nobody (by simp [Peer.Listed])
      · exact orderly.watched.skip nobody (by simp [Peer.Watched])
    · cases accepted
  · cases stepped

/-- In an orderly registry, the condition says that the map has no entry under the new
socket. -/
theorem Orderly.vacant (orderly : Orderly r) (found : r.peers c = some peer)
    (accepted : peer.phase = .accepted) (vacated : Vacated r (.addConnection c)) :
    r.connections peer.socket = none := by
  rw [Option.eq_none_iff_forall_ne_some]
  intro c' taken
  obtain ⟨peer', found', same, added | closed⟩ := (orderly.listed _ _).mp taken
  · have one := orderly.owner.unique found found' (.inl accepted) (.inr added) same.symm
    subst one
    cases found.symm.trans found'
    cases accepted.symm.trans added
  · exact vacated c peer rfl found c' peer' found' closed same

theorem Orderly.addConnection (orderly : Orderly r) (found : r.peers c = some peer)
    (accepted : peer.phase = .accepted) (vacated : Vacated r (.addConnection c)) :
    Orderly (r.addConnection epollFdVec c peer) := by
  have vacant := orderly.vacant found accepted vacated
  have opened : r.os.owner peer.socket = some c := orderly.owner.found found (.inl accepted)
  have unwatched : ∀ ep, r.os.registered (ep, peer.socket) = none := by
    intro ep
    rw [Option.eq_none_iff_forall_ne_some]
    intro c' registered
    obtain ⟨peer', found', key, added⟩ := (orderly.watched _ _).mp registered
    have listed := orderly.listed.found found' (.inl added)
    rw [(Prod.mk.inj key).2, vacant] at listed
    cases listed
  have add : ∀ ep, (r.os.ctlAdd ep peer.socket c).1 = r.os.setPtr ep peer.socket (some c) := by
    intro ep
    rw [Os.ctlAdd, if_pos ⟨by rw [opened]; simp, unwatched ep⟩]
  simp only [Registry.addConnection, Registry.insert, if_pos vacant, add]
  constructor
  · exact orderly.owner.keep found (.inl accepted) (.inr rfl) rfl
  · have unlisted : ¬ peer.Listed := by simp [Peer.Listed, accepted]
    exact orderly.listed.select (Indexes.out_of found unlisted) (.inl rfl) vacant
  · have out : ¬ peer.Watched := by simp [Peer.Watched, accepted]
    exact orderly.watched.select (Indexes.out_of found out) rfl (unwatched _)

theorem Orderly.closeSocket (orderly : Orderly r) (found : r.peers c = some peer)
    (added : peer.phase = .added) : Orderly (r.closeSocket c peer) := by
  -- the one registration of the descriptor is that of the connection itself
  have dropped : (r.os.close peer.socket).registered =
      Function.update r.os.registered (peer.epollFd, peer.socket) none := by
    funext key
    by_cases same : key = (peer.epollFd, peer.socket)
    · subst same
      rw [Function.update_self]
      exact if_pos rfl
    · rw [Function.update_of_ne same]
      simp only [Os.close]
      split
      · rename_i socket
        rw [eq_comm, Option.eq_none_iff_forall_ne_some]
        intro c' registered
        obtain ⟨peer', found', key', added'⟩ := (orderly.watched _ _).mp registered
        subst key'
        have one := orderly.owner.unique found found' (.inr added) (.inr added') socket.symm
        subst one
        cases found.symm.trans found'
        exact same rfl
      · rfl
  constructor
  · exact orderly.owner.deselect found (.inr added) (by simp [Peer.Open])
  · exact orderly.listed.keep found (.inl added) (.inr rfl) rfl
  · show Indexes _ _ _ (r.os.close peer.socket).registered
    rw [dropped]
    exact orderly.watched.deselect found added (by simp [Peer.Watched])

theorem Orderly.removeConnection (orderly : Orderly r) (found : r.peers c = some peer)
    (closed : peer.phase = .closed) : Orderly (r.removeConnection c peer) := by
  -- nobody is registered under the number, so the deletion fails
  have gone : (r.os.ctlDel peer.epollFd peer.socket).1 = r.os := by
    rw [Os.ctlDel]
    split
    · rename_i registered
      obtain ⟨c', registered⟩ := Option.ne_none_iff_exists'.mp registered
      obtain ⟨peer', found', key, added⟩ := (orderly.watched _ _).mp registered
      have one := orderly.listed.unique found found' (.inr closed) (.inl added) (Prod.mk.inj key).2.symm
      subst one
      cases found.symm.trans found'
      cases closed.symm.trans added
    · rfl
  simp only [Registry.removeConnection, gone]
  constructor
  · have shut : ¬ peer.Open := by simp [Peer.Open, closed]
    exact orderly.owner.skip (Indexes.out_of found shut) (by simp [Peer.Open])
  · exact orderly.listed.deselect found (.inr closed) (by simp [Peer.Listed])
  · have out : ¬ peer.Watched := by simp [Peer.Watched, closed]
    exact orderly.watched.skip (Indexes.out_of found out) (by simp [Peer.Watched])

theorem Orderly.kill (orderly : Orderly r) (found : r.peers c = some peer)
    (removed : peer.phase = .removed) : Orderly (r.setPeer c { peer with phase := .killed }) := by
  constructor
  · have shut : ¬ peer.Open := by simp [Peer.Open, removed]
    exact orderly.owner.skip (Indexes.out_of found shut) (by simp [Peer.Open])
  · have unlisted : ¬ peer.Listed := by simp [Peer.Listed, removed]
    exact orderly.listed.skip (Indexes.out_of found unlisted) (by simp [Peer.Listed])
  · have out : ¬ peer.Watched := by simp [Peer.Watched, removed]
    exact orderly.watched.skip (Indexes.out_of found out) (by simp [Peer.Watched])

theorem Orderly.doPushSend (orderly : Orderly r) (found : r.peers c = some peer)
    {fd : Nat} (listed : r.connections fd = some c) (rearms : Bool) :
    r.doPushSend rearms c peer = r := by
  obtain ⟨peer', found', socket, -⟩ := (orderly.listed _ _).mp listed
  cases found.symm.trans found'
  rw [Registry.doPushSend]
  split
  · rw [Os.ctlMod]
    split
    · rename_i registered
      obtain ⟨c', registered⟩ := Option.ne_none_iff_exists'.mp registered
      obtain ⟨peer', found', key, added⟩ := (orderly.watched _ _).mp registered
      have other := orderly.listed.found found' (.inl added)
      rw [(Prod.mk.inj key).2, socket, listed] at other
      cases other
      rw [Os.setPtr, ← registered, Function.update_eq_self]
    · rfl
  · rfl

theorem Orderly.step (orderly : Orderly r) (vacated : Vacated r e)
    (stepped : registryStep epollFdVec r e = some r') : Orderly r' := by
  cases e with
  | accept c fd => exact orderly.accept stepped
  | addConnection c =>
    obtain ⟨peer, located, same⟩ := Option.map_eq_some_iff.mp stepped
    cases same
    obtain ⟨found, accepted⟩ := at_eq_some.mp located
    exact orderly.addConnection found accepted vacated
  | closeSocket c =>
    obtain ⟨peer, located, same⟩ := Option.map_eq_some_iff.mp stepped
    cases same
    obtain ⟨found, added⟩ := at_eq_some.mp located
    exact orderly.closeSocket found added
  | removeConnection c =>
    obtain ⟨peer, located, same⟩ := Option.map_eq_some_iff.mp stepped
    cases same
    obtain ⟨found, closed⟩ := at_eq_some.mp located
    exact orderly.removeConnection found closed
  | kill c =>
    obtain ⟨peer, located, same⟩ := Option.map_eq_some_iff.mp stepped
    cases same
    obtain ⟨found, removed⟩ := at_eq_some.mp located
    exact orderly.kill found removed
  | doPushSend fd rearms =>
    obtain ⟨c, listed, rest⟩ := Option.bind_eq_some_iff.mp stepped
    obtain ⟨peer, found, same⟩ := Option.map_eq_some_iff.mp rest
    rw [orderly.doPushSend found listed rearms] at same
    exact same ▸ orderly

/-- A connection that is added while the map still has the entry of another one under
its socket is not in the map. -/
theorem Orderly.vacated_of_consistent (orderly : Orderly r)
    (stepped : registryStep epollFdVec r e = some r') (consistent : Consistent r') : Vacated r e := by
  rintro c peer rfl found c' peer' found' closed same
  obtain ⟨_, located, rfl⟩ := Option.map_eq_some_iff.mp stepped
  obtain ⟨found'', accepted⟩ := at_eq_some.mp located
  cases found.symm.trans found''
  have taken : r.connections peer.socket = some c' := by
    rw [← same]
    exact orderly.listed.found found' (.inr closed)
  have kept : r.insert peer.socket c = r := by
    rw [Registry.insert, if_neg (by rw [taken]; simp)]
  have entry := (consistent.present c _ (Function.update_self ..) rfl).1
  simp only [Registry.addConnection, kept, Registry.setPeer] at entry
  rw [taken] at entry
  cases entry
  cases found.symm.trans found'
  cases accepted.symm.trans closed

end Steps

/-- Along every run, the registry is consistent in every state exactly when no connection
is added while another one with its descriptor is between the first two steps of `Close`. -/
theorem registry_consistent_iff (epollFdVec : List Nat) (events : List RegistryEvent) :
    Runs.Throughout (registryStep epollFdVec) Consistent .start events ↔
      Runs.Guarded (registryStep epollFdVec) Vacated .start events :=
  Runs.throughout_iff_guarded (fun _ orderly => orderly.consistent)
    (fun _ _ _ orderly vacated stepped => orderly.step vacated stepped)
    (fun _ _ _ orderly stepped consistent => orderly.vacated_of_consistent stepped consistent)
    orderly_start events

/-- The number of a socket that is closed and not yet removed is accepted again. -/
theorem registry_not_consistent :
    ¬ Runs.Throughout (registryStep [3, 4]) Consistent .start
      [.accept 0 9, .addConnection 0, .closeSocket 0, .accept 1 9, .addConnection 1] := by
  intro consistent
  have ends : (Runs.run (registryStep [3, 4]) .start
      [.accept 0 9, .addConnection 0, .closeSocket 0, .accept 1 9, .addConnection 1]).map
        (fun r => (r.connections 9, (r.peers 1).map fun peer => (peer.socket, peer.phase))) =
      some (some 0, some (9, .added)) := by decide
  obtain ⟨r, reached, final⟩ := Option.map_eq_some_iff.mp ends
  obtain ⟨entry, known⟩ := Prod.mk.inj final
  obtain ⟨peer, found, same⟩ := Option.map_eq_some_iff.mp known
  obtain ⟨socket, added⟩ := Prod.mk.inj same
  have present := ((consistent.last reached).present 1 peer found added).1
  rw [socket, entry] at present
  cases present

end Sometest.Epoll
