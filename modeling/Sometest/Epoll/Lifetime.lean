import Mathlib.Data.List.Nodup
import Sometest.Epoll.Registry

/-! The lifetime of the connections of the epoll server: all threads that reach one through a
pointer, and `CSessionMgr`, which deletes a session with its connection. -/
namespace Sometest.Epoll

/-- `onAccept`, between its calls. -/
inductive Listener where
  | idle
  | accepted (c : Nat)
  | enqueued (c : Nat)
  deriving DecidableEq

/-- The loop of `CSessionMgr::update` that is running. -/
inductive Loop where
  | drain
  | check
  | update
  deriving DecidableEq

/-- `sessionList_` is `passed ++ ahead`: the loop is in front of the first session ahead. -/
structure SessionMgr where
  waiting : List Nat
  passed : List Nat
  ahead : List Nat
  loop : Loop

/-- Each epoll instance has one worker. `batch` are the `data.ptr` of the events that it has
fetched and not begun with, `closing` the connection whose `Close` it is in; the connection's
phase says how far. `late` counts the uses of a deleted connection. -/
structure Process where
  registry : Registry
  listener : Listener
  batch : Nat → List Nat
  closing : Nat → Option Nat
  mgr : SessionMgr
  added : List Nat
  closes : List Nat
  deleted : List Nat
  late : Nat

def Process.start : Process :=
  ⟨.start, .idle, fun _ => [], fun _ => none, ⟨[], [], [], .drain⟩, [], [], [], 0⟩

/-- A step of the listener, of the worker of an epoll instance, of `PushSendThread` or of the
session thread. `ready` are the descriptors for which `epoll_wait` has an event. -/
inductive ProcessEvent where
  | accept (c fd : Nat)
  | addSession
  | addConnection
  | wait (ep : Nat) (ready : List Nat)
  | serve (ep : Nat)
  | closeSocket (ep : Nat)
  | removeConnection (ep : Nat)
  | kill (ep : Nat)
  | doPushSend (fd : Nat) (rearms : Bool)
  | sweep

namespace Process

/-- A use of a deleted connection is counted and does nothing else. -/
def access (s : Process) (c : Nat) (act : Peer → Option Process) : Option Process :=
  if c ∈ s.deleted then some { s with late := s.late + 1 } else (s.registry.peers c).bind act

def isActive (peer : Peer) : Bool := peer.phase ≠ .killed

/-- The next step of `CSessionMgr::update`. -/
def sweep (s : Process) : Option Process :=
  match s.mgr.loop with
  | .drain =>
    match s.mgr.waiting with
    | [] => some { s with mgr := { s.mgr with loop := .check } }
    | c :: rest => some { s with mgr := { s.mgr with waiting := rest, ahead := s.mgr.ahead ++ [c] } }
  | .check =>
    match s.mgr.ahead with
    | [] => some { s with mgr := { s.mgr with passed := [], ahead := s.mgr.passed, loop := .update } }
    | c :: rest => s.access c fun peer =>
      if isActive peer then
        some { s with mgr := { s.mgr with passed := s.mgr.passed ++ [c], ahead := rest } }
      else some { s with mgr := { s.mgr with ahead := rest }, deleted := s.deleted ++ [c] }
  | .update =>
    match s.mgr.ahead with
    | [] => some { s with mgr := { s.mgr with passed := [], ahead := s.mgr.passed, loop := .drain } }
    | c :: rest => s.access c fun _ =>
      some { s with mgr := { s.mgr with passed := s.mgr.passed ++ [c], ahead := rest } }

/-- No outcome for an event that cannot occur. -/
def step (epollFdVec : List Nat) (s : Process) : ProcessEvent → Option Process
  | .accept c fd =>
    if s.listener = .idle then
      (registryStep epollFdVec s.registry (.accept c fd)).map fun registry =>
        { s with registry, listener := .accepted c }
    else none
  | .addSession =>
    match s.listener with
    | .accepted c => some { s with
        listener := .enqueued c
        mgr := { s.mgr with waiting := s.mgr.waiting ++ [c] }
        added := s.added ++ [c] }
    | _ => none
  | .addConnection =>
    match s.listener with
    | .enqueued c => s.access c fun peer =>
      some { s with registry := s.registry.addConnection epollFdVec c peer, listener := .idle }
    | _ => none
  | .wait ep ready =>
    if s.batch ep = [] ∧ s.closing ep = none ∧ ready.Nodup then
      let events := ready.filterMap fun fd => s.registry.os.registered (ep, fd)
      some { s with batch := Function.update s.batch ep events }
    else none
  | .serve ep =>
    match s.closing ep, s.batch ep with
    | none, c :: rest => s.access c fun peer => some { s with
        registry := { s.registry with os := (s.registry.os.ctlMod peer.epollFd peer.socket c).1 }
        batch := Function.update s.batch ep rest }
    | _, _ => none
  | .closeSocket ep =>
    match s.closing ep, s.batch ep with
    | none, c :: rest => s.access c fun peer => some { s with
        registry := s.registry.closeSocket c peer
        batch := Function.update s.batch ep rest
        closing := Function.update s.closing ep (some c)
        closes := s.closes ++ [c] }
    | _, _ => none
  | .removeConnection ep => (s.closing ep).bind fun c => s.access c fun peer =>
    if peer.phase = .closed then some { s with registry := s.registry.removeConnection c peer }
    else none
  | .kill ep => (s.closing ep).bind fun c => s.access c fun peer =>
    if peer.phase = .removed then
      some { s with
        registry := s.registry.setPeer c { peer with phase := .killed }
        closing := Function.update s.closing ep none }
    else none
  | .doPushSend fd rearms => (s.registry.connections fd).bind fun c => s.access c fun peer =>
    some { s with registry := s.registry.doPushSend rearms c peer }
  | .sweep => s.sweep

end Process

/-- Between `close(socket_)` and the kill of the session. -/
def Peer.Closing (peer : Peer) : Prop := peer.phase = .closed ∨ peer.phase = .removed

/-- The epoll sets and the map have only connections that are not yet removed, and fetched
events only such as are not yet closed. -/
structure Pointed (r : Registry) (batch : Nat → List Nat) (closing : Nat → Option Nat) : Prop where
  registered : Refers r.peers (fun peer => (peer.epollFd, peer.socket)) Peer.Listed
    fun key c => r.os.registered key = some c
  listed : Refers r.peers Peer.socket Peer.Listed fun fd c => r.connections fd = some c
  fetched : Refers r.peers Peer.epollFd Peer.Watched fun ep c => c ∈ batch ep
  closing : Indexes r.peers Peer.epollFd Peer.Closing closing
  once : ∀ ep, (batch ep).Nodup

section Os
variable {os : Os} {ep fd ptr c : Nat} {key : Nat × Nat}

theorem setPtr_registered (set : (os.setPtr ep fd (some ptr)).registered key = some c) :
    os.registered key = some c ∨ key = (ep, fd) ∧ c = ptr := by
  simp only [Os.setPtr] at set
  by_cases same : key = (ep, fd)
  · subst same
    rw [Function.update_self] at set
    exact .inr ⟨rfl, (Option.some.inj set).symm⟩
  · rw [Function.update_of_ne same] at set
    exact .inl set

theorem ctlAdd_registered (added : (os.ctlAdd ep fd ptr).1.registered key = some c) :
    os.registered key = some c ∨ key = (ep, fd) ∧ c = ptr := by
  rw [Os.ctlAdd] at added
  split at added
  · exact setPtr_registered added
  · exact .inl added

theorem ctlMod_registered (modified : (os.ctlMod ep fd ptr).1.registered key = some c) :
    os.registered key = some c ∨ key = (ep, fd) ∧ c = ptr := by
  rw [Os.ctlMod] at modified
  split at modified
  · exact setPtr_registered modified
  · exact .inl modified

/-- Afterwards the instance does not have the descriptor, whether it had it or not. -/
theorem ctlDel_registered (deleted : (os.ctlDel ep fd).1.registered key = some c) :
    os.registered key = some c ∧ key ≠ (ep, fd) := by
  rw [Os.ctlDel] at deleted
  split at deleted
  · simp only [Os.setPtr] at deleted
    have other : key ≠ (ep, fd) := by
      rintro rfl
      rw [Function.update_self] at deleted
      cases deleted
    rw [Function.update_of_ne other] at deleted
    exact ⟨deleted, other⟩
  · rename_i unregistered
    refine ⟨deleted, ?_⟩
    rintro rfl
    exact unregistered (by rw [deleted]; exact Option.some_ne_none c)

theorem close_registered (closed : (os.close fd).registered key = some c) :
    os.registered key = some c := by
  simp only [Os.close] at closed
  split at closed
  · cases closed
  · exact closed

end Os

section Pointers
variable {epollFdVec : List Nat} {r r' : Registry} {batch : Nat → List Nat}
  {closing : Nat → Option Nat} {c fd ep : Nat} {peer : Peer}

theorem Pointed.accept (pointed : Pointed r batch closing)
    (accepted : registryStep epollFdVec r (.accept c fd) = some r') :
    Pointed r' batch closing ∧ r.peers c = none ∧
      r'.peers = Function.update r.peers c (some ⟨fd, 0, .accepted⟩) := by
  rw [registryStep] at accepted
  split at accepted
  · rename_i fresh
    have new : r.peers c = none := Option.isNone_iff_eq_none.mp fresh
    have nobody : ∀ {allowed : Peer → Prop} peer, r.peers c = some peer → ¬ allowed peer := by
      intro allowed peer found
      cases new.symm.trans found
    obtain ⟨os, opened, same⟩ := Option.map_eq_some_iff.mp accepted
    rw [Os.accept] at opened
    split at opened
    · cases opened
      cases same
      refine ⟨⟨?_, ?_, ?_, ?_, pointed.once⟩, new, rfl⟩
      · exact pointed.registered.skip nobody
      · exact pointed.listed.skip nobody
      · exact pointed.fetched.skip nobody
      · exact pointed.closing.skip nobody (by simp [Peer.Closing])
    · cases opened
  · cases accepted

theorem addConnection_peers : ∃ epollFd, (r.addConnection epollFdVec c peer).peers =
    Function.update r.peers c (some { peer with epollFd, phase := .added }) ∧
      ∀ key j, (r.addConnection epollFdVec c peer).os.registered key = some j →
        r.os.registered key = some j ∨ key = (epollFd, peer.socket) ∧ j = c := by
  refine ⟨epollFdVec.getD (r.iocpIndex % epollFdVec.length) 0, ?_, fun key j there => ?_⟩
  · simp only [Registry.addConnection, Registry.insert, Registry.setPeer]
    split <;> rfl
  · simp only [Registry.addConnection, Registry.insert, Registry.setPeer] at there
    split at there <;> exact ctlAdd_registered there

theorem addConnection_listed {j : Nat}
    (listed : (r.addConnection epollFdVec c peer).connections fd = some j) :
    r.connections fd = some j ∨ fd = peer.socket ∧ j = c := by
  simp only [Registry.addConnection, Registry.insert, Registry.setPeer] at listed
  split at listed
  · dsimp only at listed
    by_cases same : fd = peer.socket
    · subst same
      rw [Function.update_self] at listed
      exact .inr ⟨rfl, (Option.some.inj listed).symm⟩
    · rw [Function.update_of_ne same] at listed
      exact .inl listed
  · exact .inl listed

theorem Pointed.addConnection (pointed : Pointed r batch closing) (found : r.peers c = some peer)
    (accepted : peer.phase = .accepted) :
    Pointed (r.addConnection epollFdVec c peer) batch closing := by
  have unlisted : ¬ peer.Listed := by simp [Peer.Listed, accepted]
  have unwatched : ¬ peer.Watched := by simp [Peer.Watched, accepted]
  have opened : ¬ peer.Closing := by simp [Peer.Closing, accepted]
  obtain ⟨epollFd, peers, more⟩ := @addConnection_peers epollFdVec r c peer
  refine ⟨?_, ?_, ?_, ?_, pointed.once⟩ <;> rw [peers]
  · exact (pointed.registered.skip (Indexes.out_of found unlisted)).add (Function.update_self ..)
      (.inl rfl) more
  · exact (pointed.listed.skip (Indexes.out_of found unlisted)).add (Function.update_self ..)
      (.inl rfl) fun _ _ => addConnection_listed
  · exact pointed.fetched.skip (Indexes.out_of found unwatched)
  · exact pointed.closing.skip (Indexes.out_of found opened) (by simp [Peer.Closing])

/-- A worker that is in no `Close` fetches events of open connections. -/
theorem Pointed.wait (pointed : Pointed r batch closing) (free : closing ep = none)
    {ready : List Nat} (distinct : ready.Nodup) :
    Pointed r (Function.update batch ep (ready.filterMap fun fd => r.os.registered (ep, fd)))
      closing := by
  have behind : ∀ fd c, r.os.registered (ep, fd) = some c →
      ∃ peer, r.peers c = some peer ∧ (peer.epollFd, peer.socket) = (ep, fd) ∧ peer.Watched := by
    intro fd c here
    obtain ⟨peer, found, key, added | closed⟩ := pointed.registered _ _ here
    · exact ⟨peer, found, key, added⟩
    · have busy := pointed.closing.found found (.inl closed)
      rw [(Prod.mk.inj key).1, free] at busy
      cases busy
  refine ⟨pointed.registered, pointed.listed, fun ep' c member => ?_, pointed.closing, fun ep' => ?_⟩
  · dsimp only at member
    by_cases same : ep' = ep
    · subst same
      rw [Function.update_self, List.mem_filterMap] at member
      obtain ⟨fd, -, here⟩ := member
      obtain ⟨peer, found, key, watched⟩ := behind fd c here
      exact ⟨peer, found, (Prod.mk.inj key).1, watched⟩
    · rw [Function.update_of_ne same] at member
      exact pointed.fetched ep' c member
  · by_cases same : ep' = ep
    · subst same
      rw [Function.update_self]
      refine distinct.filterMap fun fd fd' c here there => ?_
      obtain ⟨peer, found, key, -⟩ := behind fd c here
      obtain ⟨peer', found', key', -⟩ := behind fd' c there
      cases found.symm.trans found'
      exact (Prod.mk.inj (key.symm.trans key')).2
    · rw [Function.update_of_ne same]
      exact pointed.once ep'

/-- Fewer events are left. -/
theorem Pointed.pop (pointed : Pointed r batch closing) {rest : List Nat}
    (first : batch ep = c :: rest) : Pointed r (Function.update batch ep rest) closing := by
  have fewer : ∀ ep', (Function.update batch ep rest ep').Sublist (batch ep') := by
    intro ep'
    by_cases same : ep' = ep
    · subst same
      rw [Function.update_self, first]
      exact List.sublist_cons_self c rest
    · rw [Function.update_of_ne same]
  exact ⟨pointed.registered, pointed.listed,
    pointed.fetched.mono fun ep' c member => (fewer ep').subset member,
    pointed.closing, fun ep' => (pointed.once ep').sublist (fewer ep')⟩

/-- A connection in the map or in an event modifies its own registration. -/
theorem Pointed.ctlMod (pointed : Pointed r batch closing) (found : r.peers c = some peer)
    (listed : peer.Listed) :
    Pointed { r with os := (r.os.ctlMod peer.epollFd peer.socket c).1 } batch closing :=
  ⟨pointed.registered.add found listed fun _ _ => ctlMod_registered, pointed.listed,
    pointed.fetched, pointed.closing, pointed.once⟩

theorem Pointed.doPushSend (pointed : Pointed r batch closing) (found : r.peers c = some peer)
    (listed : peer.Listed) (rearms : Bool) :
    Pointed (r.doPushSend rearms c peer) batch closing := by
  rw [Registry.doPushSend]
  split
  · exact pointed.ctlMod found listed
  · exact pointed

theorem Pointed.closeSocket (pointed : Pointed r batch closing) {rest : List Nat}
    (first : batch ep = c :: rest) (free : closing ep = none) (found : r.peers c = some peer)
    (own : peer.epollFd = ep) (added : peer.phase = .added) :
    Pointed (r.closeSocket c peer) (Function.update batch ep rest)
      (Function.update closing ep (some c)) := by
  have opened : ¬ peer.Closing := by simp [Peer.Closing, added]
  have popped := pointed.pop first
  refine ⟨?_, ?_, ?_, ?_, popped.once⟩
  · exact (pointed.registered.mono fun _ _ => close_registered).keep found (.inr rfl) rfl
  · exact pointed.listed.keep found (.inr rfl) rfl
  · -- the event that is handled was the connection's only one
    apply popped.fetched.update
    intro ep' member
    have distinct := pointed.once ep
    rw [first, List.nodup_cons] at distinct
    have same : ep' = ep := (popped.fetched.row_of member found).1.symm.trans own
    subst same
    rw [Function.update_self] at member
    exact absurd member distinct.1
  · subst own
    exact pointed.closing.select (Indexes.out_of found opened) (.inl rfl) free

theorem Pointed.removeConnection (pointed : Pointed r batch closing) (found : r.peers c = some peer)
    (closed : peer.phase = .closed) : Pointed (r.removeConnection c peer) batch closing := by
  have unwatched : ¬ peer.Watched := by simp [Peer.Watched, closed]
  refine ⟨?_, ?_, ?_, ?_, pointed.once⟩
  · refine (pointed.registered.mono fun _ _ there => (ctlDel_registered there).1).update
      fun key there => ?_
    obtain ⟨here, other⟩ := ctlDel_registered there
    exact absurd (pointed.registered.row_of here found).1.symm other
  · have fewer : ∀ fd j, Function.update r.connections peer.socket none fd = some j →
        r.connections fd = some j ∧ fd ≠ peer.socket := by
      intro fd j there
      have other : fd ≠ peer.socket := by
        rintro rfl
        rw [Function.update_self] at there
        cases there
      rw [Function.update_of_ne other] at there
      exact ⟨there, other⟩
    refine (pointed.listed.mono fun fd j there => (fewer fd j there).1).update fun fd there => ?_
    obtain ⟨here, other⟩ := fewer fd c there
    exact absurd (pointed.listed.row_of here found).1.symm other
  · exact pointed.fetched.skip (Indexes.out_of found unwatched)
  · exact pointed.closing.keep found (.inl closed) (.inr rfl) rfl

theorem Pointed.kill (pointed : Pointed r batch closing) (found : r.peers c = some peer)
    (removed : peer.phase = .removed) :
    Pointed (r.setPeer c { peer with phase := .killed }) batch
      (Function.update closing peer.epollFd none) := by
  have unlisted : ¬ peer.Listed := by simp [Peer.Listed, removed]
  have unwatched : ¬ peer.Watched := by simp [Peer.Watched, removed]
  refine ⟨?_, ?_, ?_, ?_, pointed.once⟩
  · exact pointed.registered.skip (Indexes.out_of found unlisted)
  · exact pointed.listed.skip (Indexes.out_of found unlisted)
  · exact pointed.fetched.skip (Indexes.out_of found unwatched)
  · exact pointed.closing.deselect found (.inr removed) (by simp [Peer.Closing])

end Pointers

/-- What the lists say about the connections. -/
structure Recorded (peers : Nat → Option Peer) (listener : Listener)
    (added closes deleted : List Nat) : Prop where
  arriving : ∀ c, listener = .accepted c → c ∉ added ∧
    ∃ peer, peers c = some peer ∧ peer.phase = .accepted
  arrived : ∀ c, listener = .enqueued c → c ∈ added ∧
    ∃ peer, peers c = some peer ∧ peer.phase = .accepted
  known : ∀ c ∈ added, ∃ peer, peers c = some peer
  enrolled : ∀ c peer, peers c = some peer → peer.phase ≠ .accepted → c ∈ added
  dead : ∀ c ∈ deleted, ∃ peer, peers c = some peer ∧ peer.phase = .killed
  shut : ∀ c ∈ closes, ∃ peer, peers c = some peer ∧ (peer.Closing ∨ peer.phase = .killed)
  closures : closes.Nodup

def SessionMgr.pending (m : SessionMgr) : List Nat := m.passed ++ m.ahead ++ m.waiting

/-- The sessions that `CSessionMgr` has are those added and not deleted, in the order of
`addSession`. -/
structure Rostered (mgr : SessionMgr) (added deleted : List Nat) : Prop where
  distinct : added.Nodup
  deletions : deleted.Nodup
  roster : mgr.pending = added.filter (· ∉ deleted)
  rewound : mgr.loop = .drain → mgr.passed = []

structure Sound (s : Process) : Prop where
  pointed : Pointed s.registry s.batch s.closing
  recorded : Recorded s.registry.peers s.listener s.added s.closes s.deleted
  rostered : Rostered s.mgr s.added s.deleted
  never : s.late = 0

section Records
variable {peers : Nat → Option Peer} {listener : Listener} {added closes deleted : List Nat}
  {c : Nat} {peer peer' : Peer}

/-- A property of a row that the replaced row passes on to the new one. -/
theorem kept_row {P : Peer → Prop} (found : peers c = some peer) (after : P peer → P peer') {j : Nat}
    (before : ∃ row, peers j = some row ∧ P row) :
    ∃ row, Function.update peers c (some peer') j = some row ∧ P row := by
  obtain ⟨row, there, holds⟩ := before
  by_cases same : j = c
  · subst same
    cases found.symm.trans there
    exact ⟨peer', Function.update_self .., after holds⟩
  · exact ⟨row, by rw [Function.update_of_ne same, there], holds⟩

theorem new_row {P : Peer → Prop} (new : peers c = none) {j : Nat}
    (before : ∃ row, peers j = some row ∧ P row) :
    ∃ row, Function.update peers c (some peer') j = some row ∧ P row := by
  obtain ⟨row, there, holds⟩ := before
  have other : j ≠ c := by
    rintro rfl
    cases new.symm.trans there
  exact ⟨row, by rw [Function.update_of_ne other, there], holds⟩

theorem known_row {j : Nat} (before : ∃ row, peers j = some row) :
    ∃ row, Function.update peers c (some peer') j = some row := by
  by_cases same : j = c
  · subst same
    exact ⟨peer', Function.update_self ..⟩
  · rwa [Function.update_of_ne same]

theorem Recorded.accept (recorded : Recorded peers .idle added closes deleted)
    (new : peers c = none) (accepted : peer'.phase = .accepted) :
    Recorded (Function.update peers c (some peer')) (.accepted c) added closes deleted where
  arriving := by
    intro j same
    cases same
    refine ⟨fun member => ?_, peer', Function.update_self .., accepted⟩
    obtain ⟨peer, found⟩ := recorded.known c member
    cases new.symm.trans found
  arrived := by
    intro j wrong
    cases wrong
  known := fun j member => known_row (recorded.known j member)
  enrolled := by
    intro j row found other
    by_cases same : j = c
    · subst same
      rw [Function.update_self] at found
      cases found
      exact absurd accepted other
    · rw [Function.update_of_ne same] at found
      exact recorded.enrolled j row found other
  dead := fun j member => new_row new (recorded.dead j member)
  shut := fun j member => new_row new (recorded.shut j member)
  closures := recorded.closures

/-- A connection goes on from one phase to a later one. -/
theorem Recorded.advance (recorded : Recorded peers listener added closes deleted)
    (found : peers c = some peer) (member : c ∈ added)
    (before : peer.phase = .accepted → listener = .idle) (going : peer.phase ≠ .killed)
    (shut : peer.Closing → peer'.Closing ∨ peer'.phase = .killed) :
    Recorded (Function.update peers c (some peer')) listener added closes deleted where
  arriving := by
    intro j accepted
    refine ⟨(recorded.arriving j accepted).1, kept_row found ?_ (recorded.arriving j accepted).2⟩
    intro wrong
    rw [before wrong] at accepted
    cases accepted
  arrived := by
    intro j enqueued
    refine ⟨(recorded.arrived j enqueued).1, kept_row found ?_ (recorded.arrived j enqueued).2⟩
    intro wrong
    rw [before wrong] at enqueued
    cases enqueued
  known := fun j there => known_row (recorded.known j there)
  enrolled := by
    intro j row there other
    by_cases same : j = c
    · subst same
      exact member
    · rw [Function.update_of_ne same] at there
      exact recorded.enrolled j row there other
  dead := fun j there => kept_row found (fun wrong => absurd wrong going) (recorded.dead j there)
  shut := by
    intro j there
    refine kept_row found ?_ (recorded.shut j there)
    rintro (closing | wrong)
    · exact shut closing
    · exact absurd wrong going
  closures := recorded.closures

/-- The list without the session that is deleted, which it had once. -/
theorem roster_delete {front back : List Nat} (distinct : added.Nodup)
    (roster : front ++ c :: back = added.filter (· ∉ deleted)) :
    front ++ back = added.filter (· ∉ deleted ++ [c]) := by
  have once := distinct.filter (· ∉ deleted)
  rw [← roster, List.nodup_middle, List.nodup_cons] at once
  have others : added.filter (· ∉ deleted ++ [c]) =
      (added.filter (· ∉ deleted)).filter (· ≠ c) := by
    rw [List.filter_filter]
    congr 1
    funext j
    simp [and_comm]
  have kept : (front ++ back).filter (· ≠ c) = front ++ back := by
    apply List.filter_eq_self.mpr
    intro j member
    rw [decide_eq_true_iff]
    rintro rfl
    exact once.1 member
  rw [others, ← roster, List.filter_append, List.filter_cons_of_neg (by simp), ← List.filter_append,
    kept]

end Records

section Steps
variable {epollFdVec : List Nat} {s s' : Process} {c fd ep : Nat} {peer : Peer}

theorem sound_start : Sound .start where
  pointed := ⟨by simp [Refers, Process.start, Registry.start, Os.start],
    by simp [Refers, Process.start, Registry.start], by simp [Refers, Process.start],
    by simp [Indexes, Process.start, Registry.start], fun _ => .nil⟩
  recorded := ⟨by simp [Process.start], by simp [Process.start], by simp [Process.start],
    by simp [Process.start, Registry.start], by simp [Process.start], by simp [Process.start], .nil⟩
  rostered := ⟨.nil, .nil, rfl, fun _ => rfl⟩
  never := rfl

/-- The use of a connection in any phase but the last one: it is not deleted. -/
theorem Sound.access (sound : Sound s) {act : Peer → Option Process}
    (found : s.registry.peers c = some peer) (going : peer.phase ≠ .killed)
    (used : s.access c act = some s') : act peer = some s' := by
  have alive : c ∉ s.deleted := by
    intro gone
    obtain ⟨other, there, killed⟩ := sound.recorded.dead c gone
    cases found.symm.trans there
    exact going killed
  rwa [Process.access, if_neg alive, found, Option.bind_some] at used

/-- The use of a session that the manager has. -/
theorem Sound.access_pending (sound : Sound s) {act : Peer → Option Process}
    (mine : c ∈ s.mgr.pending) (used : s.access c act = some s') :
    c ∈ s.added ∧ c ∉ s.deleted ∧ ∃ peer, s.registry.peers c = some peer ∧ act peer = some s' := by
  rw [sound.rostered.roster, List.mem_filter, decide_eq_true_iff] at mine
  obtain ⟨peer, found⟩ := sound.recorded.known c mine.1
  rw [Process.access, if_neg mine.2, found, Option.bind_some] at used
  exact ⟨mine.1, mine.2, peer, found, used⟩

/-- A pointer that an event or the map has leads to a connection that is not deleted. -/
theorem listed_going (listed : peer.Listed) : peer.phase ≠ .killed := by
  rcases listed with added | closed
  · simp [added]
  · simp [closed]

/-- A step that uses a pointer finds the connection in the phase that the pointer is kept for. -/
theorem Sound.addConnection_cases (sound : Sound s)
    (stepped : s.step epollFdVec .addConnection = some s') :
    ∃ c peer, s.listener = .enqueued c ∧ s.registry.peers c = some peer ∧ peer.phase = .accepted ∧
      s' = { s with registry := s.registry.addConnection epollFdVec c peer, listener := .idle } := by
  simp only [Process.step] at stepped
  split at stepped
  · rename_i c enqueued
    obtain ⟨-, peer, found, accepted⟩ := sound.recorded.arrived c enqueued
    cases sound.access found (by simp [accepted]) stepped
    exact ⟨c, peer, enqueued, found, accepted, rfl⟩
  · cases stepped

theorem Sound.serve_cases (sound : Sound s) (stepped : s.step epollFdVec (.serve ep) = some s') :
    ∃ c rest peer, s.batch ep = c :: rest ∧ s.registry.peers c = some peer ∧ peer.Watched ∧
      s' = { s with
        registry := { s.registry with os := (s.registry.os.ctlMod peer.epollFd peer.socket c).1 }
        batch := Function.update s.batch ep rest } := by
  simp only [Process.step] at stepped
  split at stepped
  · rename_i c rest free first
    obtain ⟨peer, found, -, added⟩ := sound.pointed.fetched ep c (by simp [first])
    cases sound.access found (listed_going (.inl added)) stepped
    exact ⟨c, rest, peer, first, found, added, rfl⟩
  · cases stepped

theorem Sound.closeSocket_cases (sound : Sound s)
    (stepped : s.step epollFdVec (.closeSocket ep) = some s') :
    ∃ c rest peer, s.closing ep = none ∧ s.batch ep = c :: rest ∧
      s.registry.peers c = some peer ∧ peer.epollFd = ep ∧ peer.Watched ∧
      s' = { s with
        registry := s.registry.closeSocket c peer
        batch := Function.update s.batch ep rest
        closing := Function.update s.closing ep (some c)
        closes := s.closes ++ [c] } := by
  simp only [Process.step] at stepped
  split at stepped
  · rename_i c rest free first
    obtain ⟨peer, found, own, added⟩ := sound.pointed.fetched ep c (by simp [first])
    cases sound.access found (listed_going (.inl added)) stepped
    exact ⟨c, rest, peer, free, first, found, own, added, rfl⟩
  · cases stepped

theorem Sound.removeConnection_cases (sound : Sound s)
    (stepped : s.step epollFdVec (.removeConnection ep) = some s') :
    ∃ c peer, s.registry.peers c = some peer ∧ peer.phase = .closed ∧
      s' = { s with registry := s.registry.removeConnection c peer } := by
  obtain ⟨c, busy, used⟩ := Option.bind_eq_some_iff.mp stepped
  obtain ⟨peer, found, -, closing⟩ := (sound.pointed.closing ep c).mp busy
  have going : peer.phase ≠ .killed := by rcases closing with closed | removed <;> simp [*]
  have used := sound.access found going used
  split at used
  · cases used
    exact ⟨c, peer, found, ‹_›, rfl⟩
  · cases used

theorem Sound.kill_cases (sound : Sound s) (stepped : s.step epollFdVec (.kill ep) = some s') :
    ∃ c peer, s.registry.peers c = some peer ∧ peer.epollFd = ep ∧ peer.phase = .removed ∧
      s' = { s with
        registry := s.registry.setPeer c { peer with phase := .killed }
        closing := Function.update s.closing ep none } := by
  obtain ⟨c, busy, used⟩ := Option.bind_eq_some_iff.mp stepped
  obtain ⟨peer, found, own, closing⟩ := (sound.pointed.closing ep c).mp busy
  have going : peer.phase ≠ .killed := by rcases closing with closed | removed <;> simp [*]
  have used := sound.access found going used
  split at used
  · cases used
    exact ⟨c, peer, found, own, ‹_›, rfl⟩
  · cases used

theorem Sound.doPushSend_cases (sound : Sound s) {rearms : Bool}
    (stepped : s.step epollFdVec (.doPushSend fd rearms) = some s') :
    ∃ c peer, s.registry.peers c = some peer ∧ peer.Listed ∧
      s' = { s with registry := s.registry.doPushSend rearms c peer } := by
  obtain ⟨c, listed, used⟩ := Option.bind_eq_some_iff.mp stepped
  obtain ⟨peer, found, -, here⟩ := sound.pointed.listed fd c listed
  cases sound.access found (listed_going here) used
  exact ⟨c, peer, found, here, rfl⟩

theorem Sound.accept (sound : Sound s) (stepped : s.step epollFdVec (.accept c fd) = some s') :
    Sound s' := by
  simp only [Process.step] at stepped
  split at stepped
  · rename_i idle
    obtain ⟨registry, accepted, same⟩ := Option.map_eq_some_iff.mp stepped
    cases same
    obtain ⟨pointed, new, peers⟩ := sound.pointed.accept accepted
    refine ⟨pointed, ?_, sound.rostered, sound.never⟩
    simp only [peers]
    exact (idle ▸ sound.recorded).accept new rfl
  · cases stepped

theorem Sound.addSession (sound : Sound s) (arriving : s.listener = .accepted c) :
    Sound { s with
      listener := .enqueued c
      mgr := { s.mgr with waiting := s.mgr.waiting ++ [c] }
      added := s.added ++ [c] } := by
  obtain ⟨new, row⟩ := sound.recorded.arriving c arriving
  have roster := sound.rostered.roster
  have alive : c ∉ s.deleted := by
    intro gone
    obtain ⟨peer, found, killed⟩ := sound.recorded.dead c gone
    exact new (sound.recorded.enrolled c peer found (by simp [killed]))
  refine ⟨sound.pointed, ⟨?_, ?_, ?_, ?_, sound.recorded.dead, sound.recorded.shut,
    sound.recorded.closures⟩, ⟨?_, sound.rostered.deletions, ?_, sound.rostered.rewound⟩, sound.never⟩
  · intro j wrong
    cases wrong
  · intro j same
    cases same
    exact ⟨by simp, row⟩
  · intro j member
    rcases List.mem_append.mp member with old | here
    · exact sound.recorded.known j old
    · obtain rfl := List.mem_singleton.mp here
      exact ⟨row.choose, row.choose_spec.1⟩
  · intro j peer found other
    exact List.mem_append_left _ (sound.recorded.enrolled j peer found other)
  · exact sound.rostered.distinct.append (List.nodup_singleton c) (by simpa using new)
  · simp only [SessionMgr.pending] at roster ⊢
    rw [← List.append_assoc, roster, List.filter_append]
    simp [alive]

theorem Sound.addConnection (sound : Sound s)
    (stepped : s.step epollFdVec .addConnection = some s') : Sound s' := by
  obtain ⟨c, peer, enqueued, found, accepted, rfl⟩ := sound.addConnection_cases stepped
  have before := sound.recorded
  refine ⟨sound.pointed.addConnection found accepted, ?_, sound.rostered, sound.never⟩
  obtain ⟨epollFd, peers, -⟩ := @addConnection_peers epollFdVec s.registry c peer
  have idle : Recorded s.registry.peers .idle s.added s.closes s.deleted :=
    ⟨by simp, by simp, before.known, before.enrolled, before.dead, before.shut, before.closures⟩
  simp only [peers]
  exact idle.advance found (before.arrived c enqueued).1 (fun _ => rfl) (by simp [accepted])
    (by simp [Peer.Closing, accepted])

/-- The first event of a batch is taken out. -/
theorem Sound.serve (sound : Sound s) (stepped : s.step epollFdVec (.serve ep) = some s') :
    Sound s' := by
  obtain ⟨c, rest, peer, first, found, added, rfl⟩ := sound.serve_cases stepped
  exact ⟨(sound.pointed.pop first).ctlMod found (.inl added), sound.recorded, sound.rostered,
    sound.never⟩

theorem Sound.closeSocket (sound : Sound s)
    (stepped : s.step epollFdVec (.closeSocket ep) = some s') : Sound s' := by
  obtain ⟨c, rest, peer, free, first, found, own, added, rfl⟩ := sound.closeSocket_cases stepped
  have before := sound.recorded
  have opened : peer.phase ≠ .accepted := by rw [added]; simp
  have shut : peer.Closing → Peer.Closing { peer with phase := .closed } ∨
      ({ peer with phase := .closed } : Peer).phase = .killed := fun _ => .inl (.inl rfl)
  have more := before.advance found (before.enrolled c peer found opened)
    (fun wrong => absurd wrong opened) (listed_going (.inl added)) shut
  refine ⟨sound.pointed.closeSocket first free found own added,
    ⟨more.arriving, more.arrived, more.known, more.enrolled, more.dead, ?_, ?_⟩,
    sound.rostered, sound.never⟩
  · intro j there
    rcases List.mem_append.mp there with old | here
    · exact more.shut j old
    · obtain rfl := List.mem_singleton.mp here
      exact ⟨_, Function.update_self .., .inl (.inl rfl)⟩
  · refine before.closures.append (List.nodup_singleton c) ?_
    rw [List.disjoint_singleton]
    intro twice
    obtain ⟨other, there, shut⟩ := before.shut c twice
    cases found.symm.trans there
    simp [Peer.Closing, show peer.phase = .added from added] at shut

theorem Sound.removeConnection (sound : Sound s)
    (stepped : s.step epollFdVec (.removeConnection ep) = some s') : Sound s' := by
  obtain ⟨c, peer, found, closed, rfl⟩ := sound.removeConnection_cases stepped
  have opened : peer.phase ≠ .accepted := by simp [closed]
  have member := sound.recorded.enrolled c peer found opened
  exact ⟨sound.pointed.removeConnection found closed,
    sound.recorded.advance found member (fun wrong => absurd wrong opened) (by simp [closed])
      (fun _ => .inl (.inr rfl)), sound.rostered, sound.never⟩

theorem Sound.kill (sound : Sound s) (stepped : s.step epollFdVec (.kill ep) = some s') :
    Sound s' := by
  obtain ⟨c, peer, found, rfl, removed, rfl⟩ := sound.kill_cases stepped
  have opened : peer.phase ≠ .accepted := by simp [removed]
  have member := sound.recorded.enrolled c peer found opened
  exact ⟨sound.pointed.kill found removed,
    sound.recorded.advance found member (fun wrong => absurd wrong opened) (by simp [removed])
      (fun _ => .inr rfl), sound.rostered, sound.never⟩

theorem Sound.doPushSend (sound : Sound s) {rearms : Bool}
    (stepped : s.step epollFdVec (.doPushSend fd rearms) = some s') : Sound s' := by
  obtain ⟨c, peer, found, here, rfl⟩ := sound.doPushSend_cases stepped
  refine ⟨sound.pointed.doPushSend found here rearms, ?_, sound.rostered, sound.never⟩
  simp only [Registry.doPushSend]
  split <;> exact sound.recorded

theorem Sound.sweep (sound : Sound s) (swept : s.sweep = some s') : Sound s' := by
  have roster := sound.rostered.roster
  have moved : ∀ mgr : SessionMgr, mgr.pending = s.mgr.pending →
      (mgr.loop = .drain → mgr.passed = []) → Sound { s with mgr } :=
    fun mgr same rewound => ⟨sound.pointed, sound.recorded, ⟨sound.rostered.distinct,
      sound.rostered.deletions, same.trans roster, rewound⟩, sound.never⟩
  rw [Process.sweep] at swept
  split at swept
  · rename_i drain
    split at swept
    · cases swept
      exact moved _ rfl (by simp)
    · rename_i c rest waiting
      cases swept
      exact moved _ (by simp [SessionMgr.pending, waiting]) sound.rostered.rewound
  · rename_i check
    split at swept
    · rename_i passed
      cases swept
      exact moved _ (by simp [SessionMgr.pending, passed]) (by simp)
    · rename_i c rest ahead
      have mine : c ∈ s.mgr.pending := by simp [SessionMgr.pending, ahead]
      obtain ⟨member, alive, peer, found, used⟩ := sound.access_pending mine swept
      split at used
      · cases used
        exact moved _ (by simp [SessionMgr.pending, ahead]) (by simp [check])
      · rename_i inactive
        cases used
        have killed : peer.phase = .killed := by simpa [Process.isActive] using inactive
        refine ⟨sound.pointed, ⟨sound.recorded.arriving, sound.recorded.arrived,
          sound.recorded.known, sound.recorded.enrolled, ?_, sound.recorded.shut,
          sound.recorded.closures⟩, ⟨sound.rostered.distinct, ?_, ?_, by simp [check]⟩, sound.never⟩
        · intro j gone
          rcases List.mem_append.mp gone with old | here
          · exact sound.recorded.dead j old
          · obtain rfl := List.mem_singleton.mp here
            exact ⟨peer, found, killed⟩
        · exact sound.rostered.deletions.append (List.nodup_singleton c) (by simpa using alive)
        · simp only [SessionMgr.pending, ahead, List.append_assoc, List.cons_append] at roster ⊢
          exact roster_delete sound.rostered.distinct roster
  · rename_i update
    split at swept
    · rename_i passed
      cases swept
      exact moved _ (by simp [SessionMgr.pending, passed]) (by simp)
    · rename_i c rest ahead
      have mine : c ∈ s.mgr.pending := by simp [SessionMgr.pending, ahead]
      obtain ⟨-, -, peer, -, used⟩ := sound.access_pending mine swept
      cases used
      exact moved _ (by simp [SessionMgr.pending, ahead]) (by simp [update])

theorem Sound.step (sound : Sound s) {e : ProcessEvent}
    (stepped : s.step epollFdVec e = some s') : Sound s' := by
  cases e with
  | accept c fd => exact sound.accept stepped
  | addSession =>
    simp only [Process.step] at stepped
    split at stepped
    · rename_i c arriving
      cases stepped
      exact sound.addSession arriving
    · cases stepped
  | addConnection => exact sound.addConnection stepped
  | wait ep ready =>
    simp only [Process.step] at stepped
    split at stepped
    · rename_i free
      cases stepped
      exact ⟨sound.pointed.wait free.2.1 free.2.2, sound.recorded, sound.rostered, sound.never⟩
    · cases stepped
  | serve ep => exact sound.serve stepped
  | closeSocket ep => exact sound.closeSocket stepped
  | removeConnection ep => exact sound.removeConnection stepped
  | kill ep => exact sound.kill stepped
  | doPushSend fd rearms => exact sound.doPushSend stepped
  | sweep => exact sound.sweep stepped

end Steps

/-- In every state that a run of the process reaches, whatever its threads do in between: no
deleted connection has been used and nothing leads to one, no socket was closed twice and no
session deleted twice, each only when its `Close` was over, and the manager has the sessions
that were added and not deleted, in the order in which they came. -/
theorem no_use_after_delete (epollFdVec : List Nat) (events : List ProcessEvent) :
    Runs.Throughout (Process.step epollFdVec) (fun s =>
      s.late = 0 ∧ s.closes.Nodup ∧ s.deleted.Nodup ∧
      (∀ c ∈ s.deleted, (∃ peer, s.registry.peers c = some peer ∧ peer.phase = .killed) ∧
        (∀ key, s.registry.os.registered key ≠ some c) ∧
        (∀ fd, s.registry.connections fd ≠ some c) ∧ ∀ ep, c ∉ s.batch ep) ∧
      s.mgr.pending = s.added.filter (· ∉ s.deleted)) .start events := by
  intro pre s inside reached
  have always : Runs.Throughout (Process.step epollFdVec) Sound .start pre :=
    Runs.invariant (fun _ _ _ sound stepped => sound.step stepped) sound_start pre
  have sound := always.last reached
  refine ⟨sound.never, sound.recorded.closures, sound.rostered.deletions, fun c gone => ?_,
    sound.rostered.roster⟩
  obtain ⟨peer, found, killed⟩ := sound.recorded.dead c gone
  have past : ¬ peer.Listed := fun listed => listed_going listed killed
  refine ⟨⟨peer, found, killed⟩, fun key here => ?_, fun fd here => ?_, fun ep here => ?_⟩
  · exact past (sound.pointed.registered.row_of here found).2
  · exact past (sound.pointed.listed.row_of here found).2
  · exact past (.inl (sound.pointed.fetched.row_of here found).2)

/-- The descriptor of a connection that is being closed is accepted again, and the push pass
registers the old connection for it until the worker removes that. -/
example : (Runs.run (Process.step [3]) .start
    [.accept 0 9, .addSession, .addConnection, .wait 3 [9], .closeSocket 3, .accept 1 9,
      .addSession, .addConnection, .doPushSend 9 true]).map
        (fun s => (s.registry.os.registered (3, 9), s.closing 3)) = some (some 0, some 0) := by
  decide

def Process.Killed (s : Process) (c : Nat) : Prop :=
  ∃ peer, s.registry.peers c = some peer ∧ peer.phase = .killed

/-- Deleted, or still ahead of the loop that deletes. -/
def Due (s : Process) (c : Nat) : Prop :=
  c ∈ s.deleted ∨ s.mgr.loop = .drain ∨ s.mgr.loop = .check ∧ c ∈ s.mgr.ahead

/-- What the other threads leave alone. -/
structure Elsewhere (s s' : Process) : Prop where
  loop : s'.mgr.loop = s.mgr.loop
  ahead : s'.mgr.ahead = s.mgr.ahead
  deleted : s'.deleted = s.deleted
  killed : ∀ c, s.Killed c → s'.Killed c

section Pass
variable {epollFdVec : List Nat} {s s' : Process} {c : Nat}

/-- A row whose connection is not killed is replaced. -/
theorem killed_update {peers : Nat → Option Peer} {peer peer' : Peer} (found : peers c = some peer)
    (going : peer.phase ≠ .killed) {j : Nat}
    (killed : ∃ row, peers j = some row ∧ row.phase = .killed) :
    ∃ row, Function.update peers c (some peer') j = some row ∧ row.phase = .killed :=
  kept_row found (fun wrong => absurd wrong going) killed

theorem Sound.elsewhere (sound : Sound s) {e : ProcessEvent} (other : e ≠ .sweep)
    (stepped : s.step epollFdVec e = some s') : Elsewhere s s' := by
  cases e with
  | accept c fd =>
    simp only [Process.step] at stepped
    split at stepped
    · obtain ⟨registry, accepted, same⟩ := Option.map_eq_some_iff.mp stepped
      cases same
      obtain ⟨-, new, peers⟩ := sound.pointed.accept accepted
      refine ⟨rfl, rfl, rfl, fun j killed => ?_⟩
      simp only [Process.Killed, peers]
      exact new_row new killed
    · cases stepped
  | addSession =>
    simp only [Process.step] at stepped
    split at stepped
    · cases stepped
      exact ⟨rfl, rfl, rfl, fun _ => id⟩
    · cases stepped
  | addConnection =>
    obtain ⟨c, peer, -, found, accepted, rfl⟩ := sound.addConnection_cases stepped
    obtain ⟨epollFd, peers, -⟩ := @addConnection_peers epollFdVec s.registry c peer
    refine ⟨rfl, rfl, rfl, fun j killed => ?_⟩
    simp only [Process.Killed, peers]
    exact killed_update found (by simp [accepted]) killed
  | wait ep ready =>
    simp only [Process.step] at stepped
    split at stepped
    · cases stepped
      exact ⟨rfl, rfl, rfl, fun _ => id⟩
    · cases stepped
  | serve ep =>
    obtain ⟨c, rest, peer, -, -, -, rfl⟩ := sound.serve_cases stepped
    exact ⟨rfl, rfl, rfl, fun _ => id⟩
  | closeSocket ep =>
    obtain ⟨c, rest, peer, -, -, found, -, added, rfl⟩ := sound.closeSocket_cases stepped
    exact ⟨rfl, rfl, rfl, fun _ => killed_update found (listed_going (.inl added))⟩
  | removeConnection ep =>
    obtain ⟨c, peer, found, closed, rfl⟩ := sound.removeConnection_cases stepped
    exact ⟨rfl, rfl, rfl, fun _ => killed_update found (by simp [closed])⟩
  | kill ep =>
    obtain ⟨c, peer, found, -, removed, rfl⟩ := sound.kill_cases stepped
    exact ⟨rfl, rfl, rfl, fun _ => killed_update found (by simp [removed])⟩
  | doPushSend fd rearms =>
    obtain ⟨c, peer, found, -, rfl⟩ := sound.doPushSend_cases stepped
    refine ⟨rfl, rfl, rfl, fun j killed => ?_⟩
    simp only [Process.Killed, Registry.doPushSend]
    split <;> exact killed
  | sweep => exact absurd rfl other

theorem Sound.due_drain (sound : Sound s) (killed : s.Killed c) (drain : s.mgr.loop = .drain)
    (swept : s.sweep = some s') : s'.Killed c ∧ Due s' c := by
  simp only [Process.sweep, drain] at swept
  split at swept
  · rename_i empty
    cases swept
    refine ⟨killed, ?_⟩
    by_cases gone : c ∈ s.deleted
    · exact .inl gone
    · obtain ⟨peer, found, dead⟩ := killed
      have member := sound.recorded.enrolled c peer found (by simp [dead])
      have mine : c ∈ s.mgr.pending := by
        rw [sound.rostered.roster, List.mem_filter]
        exact ⟨member, by simpa using gone⟩
      rw [SessionMgr.pending, empty, sound.rostered.rewound drain] at mine
      exact .inr (.inr ⟨rfl, by simpa using mine⟩)
  · cases swept
    exact ⟨killed, .inr (.inl rfl)⟩

/-- The loop deletes the session when it comes to it. -/
theorem Sound.due_check (sound : Sound s) (killed : s.Killed c) (check : s.mgr.loop = .check)
    (due : c ∈ s.deleted ∨ c ∈ s.mgr.ahead) (swept : s.sweep = some s') :
    s'.Killed c ∧ Due s' c := by
  simp only [Process.sweep, check] at swept
  split at swept
  · rename_i empty
    cases swept
    refine ⟨killed, .inl (due.resolve_right ?_)⟩
    rw [empty]
    exact List.not_mem_nil
  · rename_i j rest ahead
    have mine : j ∈ s.mgr.pending := by simp [SessionMgr.pending, ahead]
    obtain ⟨-, -, other, there, used⟩ := sound.access_pending mine swept
    rw [ahead, List.mem_cons] at due
    split at used
    · rename_i active
      cases used
      refine ⟨killed, ?_⟩
      rcases due with gone | rfl | later
      · exact .inl gone
      · obtain ⟨peer, found, dead⟩ := killed
        cases found.symm.trans there
        simp [Process.isActive, dead] at active
      · exact .inr (.inr ⟨rfl, later⟩)
    · cases used
      refine ⟨killed, ?_⟩
      rcases due with gone | rfl | later
      · exact .inl (List.mem_append_left _ gone)
      · exact .inl (by simp)
      · exact .inr (.inr ⟨rfl, later⟩)

theorem Sound.due_update (sound : Sound s) (killed : s.Killed c) (update : s.mgr.loop = .update)
    (gone : c ∈ s.deleted) (swept : s.sweep = some s') : s'.Killed c ∧ Due s' c := by
  simp only [Process.sweep, update] at swept
  split at swept
  · cases swept
    exact ⟨killed, .inl gone⟩
  · rename_i j rest ahead
    have mine : j ∈ s.mgr.pending := by simp [SessionMgr.pending, ahead]
    obtain ⟨-, -, other, there, used⟩ := sound.access_pending mine swept
    cases used
    exact ⟨killed, .inl gone⟩

theorem Sound.due_sweep (sound : Sound s) (killed : s.Killed c) (due : Due s c)
    (swept : s.sweep = some s') : s'.Killed c ∧ Due s' c := by
  cases loop : s.mgr.loop with
  | drain => exact sound.due_drain killed loop swept
  | check =>
    refine sound.due_check killed loop ?_ swept
    rcases due with gone | drain | ⟨-, ahead⟩
    · exact .inl gone
    · cases loop.symm.trans drain
    · exact .inr ahead
  | update =>
    refine sound.due_update killed loop ?_ swept
    rcases due with gone | drain | ⟨check, -⟩
    · exact gone
    · cases loop.symm.trans drain
    · cases loop.symm.trans check

theorem Sound.due_step (sound : Sound s) (killed : s.Killed c) (due : Due s c) {e : ProcessEvent}
    (stepped : s.step epollFdVec e = some s') : s'.Killed c ∧ Due s' c := by
  by_cases swept : e = .sweep
  · subst swept
    exact sound.due_sweep killed due stepped
  · have same := sound.elsewhere swept stepped
    refine ⟨same.killed c killed, ?_⟩
    rw [Due, same.loop, same.ahead, same.deleted]
    exact due

end Pass

/-- A session that is inactive when the manager is at the beginning of a pass is deleted, with
its connection, before the pass comes to the updates, whatever the other threads do meanwhile. -/
theorem deleted_in_pass (epollFdVec : List Nat) (before after : List ProcessEvent)
    (s s' : Process) (c : Nat)
    (reached : Runs.run (Process.step epollFdVec) .start before = some s)
    (drain : s.mgr.loop = .drain) (killed : s.Killed c)
    (went : Runs.run (Process.step epollFdVec) s after = some s')
    (updates : s'.mgr.loop = .update) : c ∈ s'.deleted := by
  have preserved : ∀ t e t', Sound t ∧ t.Killed c ∧ Due t c →
      t.step epollFdVec e = some t' → Sound t' ∧ t'.Killed c ∧ Due t' c := by
    rintro t e t' ⟨sound, killed, due⟩ stepped
    exact ⟨sound.step stepped, sound.due_step killed due stepped⟩
  have always : Runs.Throughout (Process.step epollFdVec) Sound .start before :=
    Runs.invariant (fun _ _ _ sound stepped => sound.step stepped) sound_start before
  have sound := always.last reached
  obtain ⟨-, -, due⟩ :=
    (Runs.invariant preserved ⟨sound, killed, .inr (.inl drain)⟩ after).last went
  rcases due with gone | drain | ⟨check, -⟩
  · exact gone
  · cases updates.symm.trans drain
  · cases updates.symm.trans check

/-- Another client gets the descriptor while the pass is under way. -/
theorem deleted_in_pass_reused : ∃ s s',
    Runs.run (Process.step [3]) .start [.accept 0 9, .addSession, .addConnection, .wait 3 [9],
      .closeSocket 3, .removeConnection 3, .kill 3] = some s ∧
    Runs.run (Process.step [3]) s [.sweep, .accept 1 9, .sweep, .addSession, .sweep, .sweep] =
      some s' ∧ 0 ∈ s'.deleted := by
  have first : (Runs.run (Process.step [3]) .start [.accept 0 9, .addSession, .addConnection,
      .wait 3 [9], .closeSocket 3, .removeConnection 3, .kill 3]).map (fun s =>
        (s.mgr.loop, (s.registry.peers 0).map Peer.phase)) = some (.drain, some .killed) := by decide
  obtain ⟨s, reached, final⟩ := Option.map_eq_some_iff.mp first
  obtain ⟨drain, dead⟩ := Prod.mk.inj final
  have second : (Runs.run (Process.step [3]) .start ([.accept 0 9, .addSession, .addConnection,
      .wait 3 [9], .closeSocket 3, .removeConnection 3, .kill 3] ++
        [.sweep, .accept 1 9, .sweep, .addSession, .sweep, .sweep])).map (fun s => s.mgr.loop) =
          some .update := by decide
  rw [Runs.run_append, reached, Option.bind_some] at second
  obtain ⟨s', went, updates⟩ := Option.map_eq_some_iff.mp second
  have killed : s.Killed 0 := Option.map_eq_some_iff.mp dead
  exact ⟨s, s', reached, went, deleted_in_pass [3] _ _ s s' 0 reached drain killed went updates⟩

end Sometest.Epoll
