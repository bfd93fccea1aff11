import Mathlib.Data.Int.Order.Basic
import Sometest.Lib.OrderedMap
import Sometest.Epoll.Connection
import Sometest.Iocp.Connection

/-! One pass of `PushSendThread::Kernel` in CTcpConnectionMgr.cpp over the map `connections_`, in
both ports. The thread holds `mutex_`, so nobody else changes the map meanwhile. -/
namespace Sometest.PushSend
open Sometest.Net

/-- A `CTcpConnection` with its `socket_`. -/
structure Peer (C : Type) where
  socket : Int
  conn : C

/-- `peers` are the connection objects by their address. Every entry of the map has the
socket of its connection as its key. -/
structure Manager (C : Type) where
  connections : OrderedMap Int Nat
  peers : Nat → Peer C
  keyed : ∀ e ∈ connections.entries, (peers e.2).socket = e.1

namespace Manager
variable {C : Type}

def store (m : Manager C) (p : Nat) (conn : C) : Manager C where
  connections := m.connections
  peers := Function.update m.peers p { m.peers p with conn }
  keyed := by
    intro e member
    by_cases same : e.2 = p
    · rw [same, Function.update_self, ← same]
      exact m.keyed e member
    · rw [Function.update_of_ne same]
      exact m.keyed e member

def removeConnection (m : Manager C) (p : Nat) : Manager C where
  connections := m.connections.erase (m.peers p).socket
  peers := m.peers
  keyed := fun e member => m.keyed e (OrderedMap.mem_erase.mp member).1

theorem store_other {m : Manager C} {p q : Nat} {conn : C} (other : q ≠ p) :
    (m.store p conn).peers q = m.peers q := Function.update_of_ne other _ _

@[simp] theorem store_self (m : Manager C) (p : Nat) (conn : C) :
    (m.store p conn).peers p = { m.peers p with conn } := Function.update_self p _ _

theorem store_same (m : Manager C) (p : Nat) : m.store p (m.peers p).conn = m := by
  obtain ⟨connections, peers, keyed⟩ := m
  simp only [store, Function.update_eq_self]

end Manager

/-- What the pass uses of a port. The first argument of `doPushSend` says whether the
arming call succeeds. -/
structure Port (C : Type) where
  pushSend : C → Bool
  doPushSend : Bool → Nat → Manager C → Except Fault (Manager C × Bool)

/-- `epoll_ctl` may fail; the connection stays in the map. -/
def epoll : Port Epoll.Connection where
  pushSend := fun c => c.session.pushSend
  doPushSend := fun ctl p m =>
    let (conn, ok) := (m.peers p).conn.doPushSend ctl
    .ok (m.store p conn, ok)

/-- `WSASend` may fail; `close` then removes the connection from the map, under the same
recursive lock. -/
def iocp : Port Iocp.Connection where
  pushSend := fun c => c.session.pushSend
  doPushSend := fun accepts p m => do
    let (conn, ok) ← (m.peers p).conn.doPushSend accepts
    let stored := m.store p conn
    .ok (if conn.closes = (m.peers p).conn.closes then stored else stored.removeConnection p, ok)

/-- `attempts` are the connections whose flag `doPushSend` has found set. -/
structure Pass (C : Type) where
  manager : Manager C
  attempts : List Nat

def Pass.connections {C : Type} (s : Pass C) : OrderedMap Int Nat := s.manager.connections

namespace Port
variable {C : Type} (port : Port C)

def turn (outcomes : Nat → Bool) (turn p : Nat) (s : Pass C) : Except Fault (Pass C × Bool) := do
  let (manager, ok) ← port.doPushSend (outcomes turn) p s.manager
  let found := port.pushSend (s.manager.peers p).conn
  .ok (⟨manager, if found then s.attempts ++ [p] else s.attempts⟩, ok)

/-- The loop of `Kernel`: `iter++` after `true`, `begin()` after `false`. -/
def kernel (outcomes : Nat → Bool) (bound : Nat) (manager : Manager C) :
    Except (OrderedMap.ScanFault Fault) (Pass C) :=
  OrderedMap.scan Pass.connections (port.turn outcomes) bound ⟨manager, []⟩

def pending (s : Pass C) (p : Nat) : Bool := port.pushSend (s.manager.peers p).conn

/-- What `doPushSend` does about a flag that is set. -/
structure Served (m : Manager C) (p : Nat) (m' : Manager C) (ok : Bool) : Prop where
  cleared : port.pushSend (m'.peers p).conn = false
  others : ∀ q, q ≠ p → m'.peers q = m.peers q
  connections : m'.connections = m.connections ∨
    ok = false ∧ m'.connections = m.connections.erase (m.peers p).socket

/-- Without the flag `doPushSend` does nothing and succeeds. -/
structure Lawful : Prop where
  idle : ∀ outcome p m, port.pushSend (m.peers p).conn = false →
    port.doPushSend outcome p m = .ok (m, true)
  serves : ∀ outcome p m, port.pushSend (m.peers p).conn = true →
    ∃ m' ok, port.doPushSend outcome p m = .ok (m', ok) ∧ port.Served m p m' ok

end Port

theorem epoll_clears {c : Epoll.Connection} (set : c.session.pushSend = true) (ctl : Bool) :
    (c.doPushSend ctl).1.session.pushSend = false := by
  by_cases free : c.writeLock = 0
  · rw [Epoll.Connection.doPushSend_free ctl set free, Epoll.Connection.modifyRegistInfo]
    cases ctl <;> split <;> rfl
  · rw [Epoll.Connection.doPushSend_held ctl set free]

theorem epoll_lawful : epoll.Lawful where
  idle := by
    intro ctl p m clear
    simp only [epoll, Epoll.Connection.doPushSend_unset ctl clear, Manager.store_same]
  serves := by
    intro ctl p m set
    refine ⟨_, _, rfl, ?_, fun q other => Manager.store_other other, .inl rfl⟩
    simp only [epoll, Manager.store_self]
    exact epoll_clears set ctl

/-- With no bytes to remove nothing fails but `WSASend`, and then the connection is closed. -/
theorem iocp_startNextWrite (c : Iocp.Connection) (accepts : Bool) :
    ∃ c' ok, c.startNextWrite accepts 0 = .ok (c', ok) ∧
      c'.session.pushSend = c.session.pushSend ∧ (ok = true → c'.closes = c.closes) := by
  rw [Iocp.Connection.startNextWrite]
  simp only [ne_eq, not_true_eq_false, if_false, ok_bind]
  split
  · exact ⟨_, _, rfl, rfl, fun _ => rfl⟩
  · split
    · exact ⟨_, _, rfl, rfl, fun _ => rfl⟩
    · exact ⟨_, _, rfl, rfl, fun wrong => absurd wrong Bool.false_ne_true⟩

theorem iocp_clears {c : Iocp.Connection} (set : c.session.pushSend = true) (accepts : Bool) :
    ∃ c' ok, c.doPushSend accepts = .ok (c', ok) ∧ c'.session.pushSend = false ∧
      (ok = true → c'.closes = c.closes) := by
  by_cases free : c.writeLock = 0
  · rw [Iocp.Connection.doPushSend_free set free]
    exact iocp_startNextWrite _ accepts
  · rw [Iocp.Connection.doPushSend_held set free]
    exact ⟨_, _, rfl, rfl, fun _ => rfl⟩

theorem iocp_lawful : iocp.Lawful where
  idle := by
    intro accepts p m clear
    simp only [iocp, Iocp.Connection.doPushSend_unset clear, ok_bind, if_true, Manager.store_same]
  serves := by
    intro accepts p m set
    obtain ⟨conn, ok, ran, cleared, opened⟩ := iocp_clears set accepts
    have pushed : iocp.doPushSend accepts p m = .ok
        (if conn.closes = (m.peers p).conn.closes then m.store p conn
        else (m.store p conn).removeConnection p, ok) := by
      simp only [iocp, ran, ok_bind]
    refine ⟨_, ok, pushed, ?_⟩
    split
    · refine ⟨?_, fun q other => Manager.store_other other, .inl rfl⟩
      rw [Manager.store_self]
      exact cleared
    · rename_i closed
      refine ⟨?_, fun q other => Manager.store_other other, .inr ⟨?_, ?_⟩⟩
      · rw [Manager.removeConnection, Manager.store_self]
        exact cleared
      · exact eq_false_of_ne_true fun still => closed (opened still)
      · show m.connections.erase ((m.store p conn).peers p).socket = _
        rw [Manager.store_self]

section Kernel
variable {C : Type} {port : Port C} {m : Manager C} {s : Pass C} {k : Int} {p : Nat}

/-- Every flag that was set is still set or has been attempted once, and whoever is no
longer in the map has been attempted. -/
structure Accounted (port : Port C) (m : Manager C) (s : Pass C) : Prop where
  counted : ∀ p, s.attempts.count p + (port.pending s p).toNat =
    (port.pushSend (m.peers p).conn).toNat
  present : ∀ e ∈ m.connections.entries, e ∈ s.connections.entries ∨ port.pending s e.2 = false

theorem accounted_start (port : Port C) (m : Manager C) : Accounted port m ⟨m, []⟩ where
  counted := fun p => by rw [List.count_nil, Nat.zero_add, Port.pending]
  present := fun _ member => .inl member

namespace Port.Served
variable {m' : Manager C} {ok : Bool} {attempts : List Nat}

theorem pending_sub (served : port.Served s.manager p m' ok) {q : Nat}
    (set : port.pending ⟨m', attempts⟩ q = true) : q ≠ p ∧ port.pending s q = true := by
  have other : q ≠ p := by
    rintro rfl
    rw [Port.pending, served.cleared] at set
    cases set
  rw [Port.pending, served.others q other] at set
  exact ⟨other, set⟩

theorem accounted (served : port.Served s.manager p m' ok) (accounted : Accounted port m s)
    (inside : (k, p) ∈ s.connections.entries) (set : port.pending s p = true) :
    Accounted port m ⟨m', s.attempts ++ [p]⟩ where
  counted := by
    intro q
    have before := accounted.counted q
    by_cases same : q = p
    · subst same
      rw [set] at before
      rw [List.count_append, List.count_singleton_self, Port.pending, served.cleared]
      exact before
    · rw [List.count_append, List.count_singleton, if_neg (by simpa using Ne.symm same), Port.pending,
        served.others q same]
      exact before
  present := by
    intro e member
    rcases accounted.present e member with here | clear
    · by_cases same : e.2 = p
      · apply Or.inr
        rw [Port.pending, same]
        exact served.cleared
      · apply Or.inl
        show e ∈ m'.connections.entries
        rcases served.connections with kept | ⟨-, erased⟩
        · rw [kept]
          exact here
        · have key : (s.manager.peers p).socket = k := s.manager.keyed _ inside
          have differs : e.1 ≠ k := by
            rintro rfl
            exact same (OrderedMap.key_unique here inside)
          rw [erased, key]
          exact OrderedMap.mem_erase.mpr ⟨here, differs⟩
    · refine .inr (eq_false_of_ne_true fun again => ?_)
      rw [(served.pending_sub again).2] at clear
      cases clear

theorem turn (served : port.Served s.manager p m' ok) (inside : (k, p) ∈ s.connections.entries)
    (set : port.pending s p = true) :
    OrderedMap.Turn Pass.connections port.pending s k p ⟨m', attempts⟩ ok := by
  refine .serves set ?_ (fun q again => (served.pending_sub again).2) served.cleared ?_
  · show m'.connections.entries.Sublist s.manager.connections.entries
    rcases served.connections with kept | ⟨-, erased⟩
    · rw [kept]
    · rw [erased]
      exact OrderedMap.erase_sublist
  · intro ok
    show (k, p) ∈ m'.connections.entries
    rcases served.connections with kept | ⟨failed, -⟩
    · rw [kept]
      exact inside
    · rw [ok] at failed
      cases failed

end Port.Served

theorem Port.Lawful.turn (lawful : port.Lawful) (outcomes : Nat → Bool) (turn : Nat)
    (accounted : Accounted port m s) (inside : (k, p) ∈ s.connections.entries) :
    ∃ s' ok, port.turn outcomes turn p s = .ok (s', ok) ∧ Accounted port m s' ∧
      OrderedMap.Turn Pass.connections port.pending s k p s' ok := by
  cases set : port.pending s p with
  | false =>
    have clear : port.pushSend (s.manager.peers p).conn = false := set
    refine ⟨s, true, ?_, accounted, .rests set⟩
    rw [Port.turn, lawful.idle _ p _ clear, ok_bind, clear]
    rfl
  | true =>
    have found : port.pushSend (s.manager.peers p).conn = true := set
    obtain ⟨m', ok, ran, served⟩ := lawful.serves (outcomes turn) p s.manager found
    refine ⟨_, ok, ?_, served.accounted accounted inside set, served.turn inside set⟩
    rw [Port.turn, ran, ok_bind, found]
    rfl

/-- The pass ends without using an iterator that was erased, it attempts the connections of
the map once if their flag is set and else never, and it leaves no flag set in the map. -/
structure Serves (port : Port C) (outcomes : Nat → Bool) (m : Manager C) (out : Pass C) : Prop where
  ends : ∀ bound, (m.connections.entries.length + 1) * (m.connections.entries.length + 1) ≤ bound →
    port.kernel outcomes bound m = .ok out
  attempted : ∀ e ∈ m.connections.entries,
    out.attempts.count e.2 = if port.pushSend (m.peers e.2).conn then 1 else 0
  clear : ∀ e ∈ out.manager.connections.entries,
    port.pushSend (out.manager.peers e.2).conn = false

theorem Port.Lawful.serves_everyone (lawful : port.Lawful) (outcomes : Nat → Bool)
    (m : Manager C) : ∃ out, Serves port outcomes m out := by
  obtain ⟨out, accounted, clear, ends⟩ := OrderedMap.scan_ends (s := ⟨m, []⟩)
    (fun turn s k p accounted inside => lawful.turn outcomes turn accounted inside)
    (accounted_start port m)
  refine ⟨out, ends, fun e member => ?_, clear⟩
  have gone : port.pending out e.2 = false := by
    rcases accounted.present e member with here | gone
    · exact clear e here
    · exact gone
  have counted := accounted.counted e.2
  rw [gone] at counted
  cases flag : port.pushSend (m.peers e.2).conn with
  | false =>
    rw [flag] at counted
    exact counted
  | true =>
    rw [flag] at counted
    exact counted

end Kernel

/-- For every map, every assignment of flags and locks, and every outcome of the arming
calls, in both ports. -/
theorem push_send_serves_everyone :
    (∀ outcomes m, ∃ out, Serves epoll outcomes m out) ∧
      ∀ outcomes m, ∃ out, Serves iocp outcomes m out :=
  ⟨epoll_lawful.serves_everyone, iocp_lawful.serves_everyone⟩

/-- The second of three arming calls fails, and the pass starts again. -/
example :
    (epoll.kernel (fun turn => turn ≠ 1) 16
      ⟨⟨[(3, 0), (5, 2), (8, 1)], by decide⟩,
        fun p => ⟨[3, 8, 5].getD p 0,
          { Epoll.Connection.init (fun _ => 0) with session := ⟨true, [], .init 4096, true⟩ }⟩,
        by decide⟩).map Pass.attempts = .ok [0, 2, 1] := rfl

end Sometest.PushSend
