import ReliableTransport.Proofs.Leaving

/-! The numbers of the connections of a sender and the table that names the open ones. `Upheaval`
says once what a move can do to the table and to what is seen of the connections; by it the
connections are numbered in the order in which they are made, and the table holds just those that
are not torn down, each as long as no other one is given its number (`Rostered`), and so all of them
as long as there are numbers enough (`Booked`). -/
namespace ReliableTransport

namespace Table

variable {t : Table} {id : ConnId} {c : ConnRef}

theorem lastId_remove (t : Table) (id : ConnId) : (t.remove id).2.lastId = t.lastId := by
  unfold remove
  split <;> rfl

/-- No number stands twice, and there is no storage without a connection. -/
structure Trim (t : Table) : Prop where
  nodup : t.entries.keys.Nodup
  storage : t.conns ≠ some []

theorem trim_empty : empty.Trim := ⟨.nil,by simp [empty]⟩

theorem Trim.insert (h : t.Trim) (id : ConnId) (c : ConnRef) : (t.insert id c).Trim where
  nodup := Dict.nodup_insert h.nodup id c
  storage := by simp [Table.insert,Dict.insert]

theorem Trim.remove (h : t.Trim) (id : ConnId) : (t.remove id).2.Trim where
  nodup := by
    rw [entries_remove]
    exact Dict.nodup_erase h.nodup id
  storage := by
    unfold Table.remove
    split
    · rename_i hc
      simp [hc]
    · simp only
      split
      · simp
      · rename_i hne
        simpa using hne

theorem trim_drain (t : Table) : t.drain.2.Trim := ⟨.nil,by simp [drain]⟩

theorem Trim.allocated_iff (h : t.Trim) : t.allocated = true ↔ 0 < t.size := by
  cases hc : t.conns with
  | none => simp [allocated,size,entries,hc]
  | some d =>
    have hd : d ≠ [] := fun hn => h.storage (by rw [hc,hn])
    simp [allocated,size,entries,hc,List.length_pos_iff,hd]

theorem Trim.remove_of_none (h : t.Trim) (hid : t.get? id = none) : (t.remove id).2 = t := by
  cases hc : t.conns with
  | none => simp [Table.remove,hc]
  | some d =>
    have hentries : t.entries = d := by simp [entries,hc]
    have hkey : id ∉ d.keys := by
      rw [Dict.not_mem_keys_iff,← hentries]
      exact hid
    have hsame : d.erase id = d := Dict.erase_of_not_mem hkey
    have hd : d.isEmpty = false := by
      rw [List.isEmpty_eq_false_iff]
      exact fun hn => h.storage (by rw [hc,hn])
    simp only [Table.remove,hc,hsame,hd,Bool.false_eq_true,if_false]
    rw [← hc]

end Table

/-- What is seen of a connection: its number, whether it was torn down and where it stands. -/
structure Face where
  id : ConnId
  closed : Bool
  state : ConnState
  deriving DecidableEq

def Connection.face (x : Connection) : Face := ⟨x.id,x.closed,x.state⟩

namespace Sender

variable {s t : Sender} {m : Move} {c d : ConnRef} {x : Connection}

def look (s : Sender) (c : ConnRef) : Option Face := (s.conns[c]?).map (·.face)

theorem look_eq (hx : s.conns[c]? = some x) : s.look c = some x.face := by rw [look,hx]; rfl

theorem look_congr (h : t.conns = s.conns) (c : ConnRef) : t.look c = s.look c := by
  rw [look,h,look]

theorem look_modify (hx : s.conns[d]? = some x) (f : Connection → Connection) (c : ConnRef) :
    (s.modify d f).look c = if c = d then some (f x).face else s.look c := by
  by_cases hc : c = d
  · rw [if_pos hc,hc,look_eq (conns_modify_self hx f)]
  · rw [if_neg hc,look,Sender.modify,List.getElem?_modify_ne _ _ (Ne.symm hc),look]

theorem look_modify_map (s : Sender) (d : ConnRef) {f : Connection → Connection} {g : Face → Face}
    (hf : ∀ x, (f x).face = g x.face) (c : ConnRef) :
    (s.modify d f).look c = if c = d then (s.look c).map g else s.look c := by
  cases hx : s.conns[d]? with
  | none =>
    split
    · rename_i hc
      rw [look,look,hc,conns_modify_of_none hx d f,hx]
      rfl
    · rename_i hc
      rw [look,Sender.modify,List.getElem?_modify_ne _ _ (Ne.symm hc),look]
  | some x =>
    rw [look_modify hx]
    split
    · rename_i hc
      rw [hf,hc,look_eq hx]
      rfl
    · rfl

theorem look_unseen {f : Connection → Connection} (ht : t.conns = s.conns.modify d f)
    (hf : ∀ x, (f x).face = x.face) (c : ConnRef) : t.look c = s.look c := by
  have hid : ∀ x, (f x).face = id x.face := hf
  rw [look_congr (s := s.modify d f) ht,look_modify_map s d hid,Option.map_id_fun,id,ite_self]

theorem attempt_unseen (s : Sender) (call : Call) :
    (s.attempt call).2.2.table = s.table ∧ ∀ c, (s.attempt call).2.2.look c = s.look c := by
  rcases attempt_cases s call with he | ⟨d,x,pieces,_,he⟩ | ⟨d,he⟩
  · rw [he]
    exact ⟨rfl,fun _ => rfl⟩
  · rw [he]
    exact ⟨rfl,look_unseen rfl fun _ => by rfl⟩
  · rw [he]
    exact ⟨rfl,look_unseen rfl fun _ => by rfl⟩

theorem enter_unseen (s : Sender) (call : Call) :
    (s.enter call).1.table = s.table ∧ ∀ c, (s.enter call).1.look c = s.look c := by
  obtain ⟨htable,hlook⟩ := attempt_unseen s call
  exact ⟨(enter_table s call).trans htable,
    fun c => (look_congr (enter_conns s call) c).trans (hlook c)⟩

theorem poll_unseen (s : Sender) (k : CallId) :
    (s.poll k).1.table = s.table ∧ ∀ c, (s.poll k).1.look c = s.look c := by
  cases hr : Waiting.ready? s.waiting k with
  | none =>
    rw [poll_none hr]
    exact ⟨rfl,fun _ => rfl⟩
  | some call =>
    obtain ⟨htable,hlook⟩ := attempt_unseen s call
    exact ⟨(poll_table hr).trans htable,fun c => (look_congr (poll_conns hr) c).trans (hlook c)⟩

theorem onWake_unseen (s : Sender) (d : ConnRef) (now : Nat) :
    (s.onWake d now).1.table = s.table ∧ ∀ c, (s.onWake d now).1.look c = s.look c := by
  unfold onWake
  split
  · exact ⟨rfl,fun _ => rfl⟩
  · split
    · exact ⟨rfl,fun _ => rfl⟩
    · split
      · exact ⟨rfl,look_unseen rfl fun _ => by rfl⟩
      · exact ⟨rfl,look_unseen rfl fun _ => by rfl⟩

theorem look_concat (h : t.conns = s.conns ++ [x]) (c : ConnRef) :
    t.look c = if c < s.conns.length then s.look c else
      if c = s.conns.length then some x.face else none := by
  rw [look,h,List.getElem?_append]
  split
  · rfl
  · rename_i hge
    split
    · rename_i hce
      rw [hce,Nat.sub_self]
      rfl
    · rename_i hce
      have hlt : s.conns.length < c := Nat.lt_of_le_of_ne (Nat.le_of_not_lt hge) (Ne.symm hce)
      rw [List.getElem?_eq_none (by rw [List.length_singleton]; exact Nat.sub_pos_of_lt hlt)]
      rfl

theorem look_eq_none_iff : s.look c = none ↔ s.conns.length ≤ c := by
  rw [look,Option.map_eq_none_iff,List.getElem?_eq_none_iff]

theorem lt_of_look {f : Face} (h : s.look c = some f) : c < s.conns.length := by
  refine Nat.lt_of_not_le fun hle => ?_
  rw [look_eq_none_iff.mpr hle] at h
  cases h

def Idle (s : Sender) : Move → Prop
  | .event (.connect _ _ none _) => False
  | .event (.disconnect id) => ∀ d x, s.established id = some (d,x) → x.closing = true
  | .event .close => False
  | .event (.datagram d source raw _) => ∀ x frame, s.conns[d]? = some x → x.listening = true →
      source = x.remote → Frame.receive raw = .ok frame → frame.kind = .acon →
      x.outbox.established = true
  | .event (.tick d) => ∀ x, s.conns[d]? = some x → x.checking = true →
      (x.silence.tick s.settings.period).expired = false
  | _ => True

/-- What a move does to the table of a sender and to what is seen of its connections. -/
inductive Upheaval (s : Sender) (t : Sender) : Move → Prop
  | rest {m : Move} (hi : s.Idle m) (ht : t.table = s.table) (hl : ∀ c, t.look c = s.look c) :
      Upheaval s t m
  | made {bound remote : Address} {now : Nat}
      (ht : t.table = s.table.allocate.2.insert s.table.allocate.1 s.conns.length)
      (hc : t.conns = s.conns ++
        [Connection.start s.table.allocate.1 bound remote s.settings.threshold now]) :
      Upheaval s t (.event (.connect bound remote none now))
  | opened {d : ConnRef} {x : Connection} {raw : Bytes} {frame : Frame} {now : Nat}
      (hx : s.conns[d]? = some x) (hl : x.listening = true) (hf : Frame.receive raw = .ok frame)
      (hk : frame.kind = .acon) (he : x.outbox.established = false) (ht : t.table = s.table)
      (hc : ∀ c, t.look c = if c = d then some ⟨x.id,x.closed,.connected⟩ else s.look c) :
      Upheaval s t (.event (.datagram d x.remote raw now))
  | left {id : ConnId} {d : ConnRef} {x : Connection} (he : s.established id = some (d,x))
      (hcl : x.closing = false) (ht : t.table = s.table)
      (hc : ∀ c, t.look c = if c = d then some ⟨x.id,x.closed,.draining⟩ else s.look c) :
      Upheaval s t (.event (.disconnect id))
  | lapsed {d : ConnRef} {x : Connection} (hx : s.conns[d]? = some x) (hch : x.checking = true)
      (he : (x.silence.tick s.settings.period).expired = true)
      (ht : t.table = (s.table.remove x.id).2)
      (hc : ∀ c, t.look c = if c = d then some ⟨x.id,true,.closed⟩ else s.look c) :
      Upheaval s t (.event (.tick d))
  | shut (ht : t.table = s.table.drain.2)
      (hc : ∀ c, t.look c = if c ∈ s.table.entries.map (·.2) then
        (s.look c).map fun f => ⟨f.id,true,.closed⟩ else s.look c) :
      Upheaval s t (.event .close)

theorem onAccept_upheaval (hx : s.conns[d]? = some x) (hl : x.listening = true) {raw : Bytes}
    {frame : Frame} (hf : Frame.receive raw = .ok frame) (hk : frame.kind = .acon) (now : Nat) :
    Upheaval s (s.onAccept d x frame.window now).1 (.event (.datagram d x.remote raw now)) := by
  unfold onAccept
  split
  · rename_i he
    refine .rest (fun y _ hy _ _ _ _ => ?_) rfl fun _ => rfl
    rw [hx] at hy
    rw [← Option.some.inj hy]
    simpa [Outbox.establish] using he
  · rename_i outbox he
    obtain ⟨htable,hlook⟩ := onWake_unseen ((s.modify d fun conn =>
      { conn with
        outbox := outbox
        silence := conn.silence.reset
        state := .connected
        pumping := true
        checking := true }).wakeCalls d) d now
    exact .opened hx hl hf hk (Outbox.not_established_of_establish he) htable fun c =>
      (hlook c).trans (look_modify hx _ c)

theorem onDatagram_upheaval (s : Sender) (d : ConnRef) (source : Address) (raw : Bytes)
    (now : Nat) :
    Upheaval s (s.onDatagram d source raw now).1 (.event (.datagram d source raw now)) := by
  unfold onDatagram
  split
  · rename_i hn
    refine .rest (fun x _ hx => ?_) rfl fun _ => rfl
    rw [hn] at hx
    cases hx
  · rename_i x hx
    have hself : ∀ {y}, s.conns[d]? = some y → y = x := fun hy => by
      rw [hx] at hy
      exact (Option.some.inj hy).symm
    split
    · rename_i hdeaf
      refine .rest (fun y _ hy hl hsource => ?_) rfl fun _ => rfl
      rw [hself hy] at hl hsource
      simp [hl,hsource] at hdeaf
    · rename_i hheard
      simp only [Bool.or_eq_true,Bool.not_eq_true',decide_eq_true_eq,not_or,Bool.not_eq_false,
        ne_eq,Decidable.not_not] at hheard
      obtain ⟨hl,rfl⟩ := hheard
      split
      · rename_i he
        refine .rest (fun _ _ _ _ _ hf => ?_) rfl fun _ => rfl
        rw [he] at hf
        cases hf
      · rename_i frame hf
        have hidle : frame.kind ≠ .acon →
            s.Idle (.event (.datagram d x.remote raw now)) := fun hne _ _ _ _ _ hg hk => by
          rw [hf] at hg
          rw [← Except.ok.inj hg] at hk
          exact absurd hk hne
        split
        · rename_i hk
          exact onAccept_upheaval hx hl hf hk now
        · rename_i hk
          have hi := hidle (by simp [hk])
          simp only [onAcknowledge]
          split
          · exact .rest hi rfl (look_unseen rfl fun _ => by rfl)
          · exact .rest hi rfl (look_unseen rfl fun _ => by rfl)
        · rename_i hk
          exact .rest (hidle (by simp [hk])) rfl (look_unseen rfl fun _ => by rfl)
        · rename_i hk _ _
          exact .rest (hidle hk) rfl fun _ => rfl

theorem onTick_upheaval (s : Sender) (d : ConnRef) :
    Upheaval s (s.onTick d) (.event (.tick d)) := by
  unfold onTick
  split
  · rename_i hn
    refine .rest (fun x hx => ?_) rfl fun _ => rfl
    rw [hn] at hx
    cases hx
  · rename_i x hx
    have hself : ∀ {y}, s.conns[d]? = some y → y = x := fun hy => by
      rw [hx] at hy
      exact (Option.some.inj hy).symm
    split
    · rename_i hch
      simp only
      split
      · rename_i he
        refine .lapsed hx hch he rfl fun c => ?_
        have hx' := conns_modify_self hx fun conn =>
          { conn with silence := x.silence.tick s.settings.period }
        refine (look_modify (s := { s.modify d _ with table := _ }) hx' _ c).trans ?_
        split
        · rfl
        · rename_i hc
          exact (look_modify hx _ c).trans (if_neg hc)
      · rename_i he
        refine .rest (fun y hy _ => ?_) rfl (look_unseen rfl fun _ => by rfl)
        rw [hself hy]
        exact Bool.eq_false_iff.mpr he
    · rename_i hch
      exact .rest (fun y hy hc => absurd (hself hy ▸ hc) hch) rfl fun _ => rfl

theorem shut_upheaval (s : Sender) : Upheaval s (s.react .close).1 (.event .close) := by
  have hfold : ∀ (cs : List ConnRef) (t : Sender),
      (cs.foldl (fun s c => (s.modify c fun conn => conn.requestClose.teardown).wakeCalls c)
        t).table = t.table ∧
      ∀ c, (cs.foldl (fun s c => (s.modify c fun conn => conn.requestClose.teardown).wakeCalls c)
        t).look c = if c ∈ cs then (t.look c).map fun f => ⟨f.id,true,.closed⟩ else t.look c := by
    intro cs
    induction cs with
    | nil => exact fun _ => ⟨rfl,fun _ => rfl⟩
    | cons d cs ih =>
      intro t
      obtain ⟨htable,hlook⟩ := ih ((t.modify d fun conn => conn.requestClose.teardown).wakeCalls d)
      refine ⟨htable,fun c => (hlook c).trans ?_⟩
      have hfirst : ((t.modify d fun conn => conn.requestClose.teardown).wakeCalls d).look c =
          if c = d then (t.look c).map fun f => ⟨f.id,true,.closed⟩ else t.look c :=
        look_modify_map t d (fun _ => rfl) c
      rw [hfirst]
      by_cases hcd : c = d
      · subst hcd
        cases t.look c <;> simp
      · simp [hcd]
  obtain ⟨htable,hlook⟩ := hfold (s.table.entries.map (·.2)) { s with table := s.table.drain.2 }
  exact .shut htable hlook

theorem make_upheaval (s : Sender) (m : Move) : Upheaval s (s.make m).1 m := by
  cases m with
  | retry k => exact .rest trivial (poll_unseen s k).1 (poll_unseen s k).2
  | event e =>
    cases e with
    | connect bound remote refused now =>
      cases refused with
      | some cause => exact .rest trivial rfl fun _ => rfl
      | none =>
        rw [make,react,onConnect_eq]
        exact .made rfl rfl
    | send id data =>
      simp only [make,react]
      split
      · exact .rest trivial rfl fun _ => rfl
      · split
        · exact .rest trivial rfl fun _ => rfl
        · exact .rest trivial (enter_unseen s _).1 (enter_unseen s _).2
    | disconnect id =>
      simp only [make,react]
      split
      · rename_i hn
        refine .rest (fun d x he => ?_) rfl fun _ => rfl
        rw [hn] at he
        cases he
      · rename_i d x he
        split
        · rename_i hcl
          refine .rest (fun d' x' he' => ?_) rfl fun _ => rfl
          rw [he] at he'
          rw [← (Prod.mk.inj (Option.some.inj he')).2]
          exact hcl
        · rename_i hcl
          obtain ⟨htable,hlook⟩ := enter_unseen
            (s.modify d fun conn => { conn with state := .draining }) (.disconnect d)
          have hx := (lookup_eq_some_iff.mp (established_eq_some_iff.mp he).1).2
          exact .left he (Bool.eq_false_iff.mpr hcl) htable fun c =>
            (hlook c).trans (look_modify hx _ c)
    | close => exact shut_upheaval s
    | datagram d source raw now => exact onDatagram_upheaval s d source raw now
    | retry d =>
      simp only [make,react,onRetry]
      split
      · exact .rest trivial rfl fun _ => rfl
      · exact .rest trivial rfl fun _ => rfl
    | wake d now => exact .rest trivial (onWake_unseen s d now).1 (onWake_unseen s d now).2
    | tick d => exact onTick_upheaval s d

/-- The move is a call for a connection from an address that the host grants. -/
def isBind : Move → Bool
  | .event (.connect _ _ none _) => true
  | _ => false

/-- How many of the moves make a connection. -/
def binds (ms : List Move) : Nat := ms.countP isBind

theorem binds_append (ms ns : List Move) : binds (ms ++ ns) = binds ms + binds ns :=
  List.countP_append

theorem make_length (s : Sender) (m : Move) :
    (s.make m).1.conns.length = s.conns.length + binds [m] := by
  cases m with
  | retry k => exact poll_length s k
  | event e =>
    rcases s.react_length e with hl | ⟨bound,remote,now,rfl⟩
    · cases e with
      | connect bound remote refused now =>
        cases refused with
        | some cause => exact hl
        | none =>
          simp only [react,onConnect_eq,List.length_append,List.length_singleton] at hl
          omega
      | _ => exact hl
    · simp only [make,react,onConnect_eq,List.length_append,List.length_singleton]
      rfl

theorem lt_length_make {s : Sender} {c : ConnRef} (hc : c < s.conns.length) (m : Move) :
    c < (s.make m).1.conns.length := by
  rw [make_length]
  exact Nat.lt_of_lt_of_le hc (Nat.le_add_right _ _)

theorem play_length (s : Sender) (ms : List Move) :
    (s.play ms).1.conns.length = s.conns.length + binds ms := by
  induction ms generalizing s with
  | nil => rfl
  | cons m ms ih =>
    have happ := binds_append [m] ms
    rw [List.singleton_append] at happ
    rw [play_cons,ih,make_length,happ,Nat.add_assoc]

def number (c : ConnRef) : ConnId := UInt32.ofNat (c + 1)

theorem toNat_number (h : c + 1 < UInt32.size) : (number c).toNat = c + 1 :=
  UInt32.toNat_ofNat_of_lt' h

theorem number_injective (hc : c + 1 < UInt32.size) (hd : d + 1 < UInt32.size)
    (h : number c = number d) : c = d := by
  have hnat := congrArg UInt32.toNat h
  rw [toNat_number hc,toNat_number hd] at hnat
  exact Nat.succ.inj hnat

/-- No other connection has the number of this one. Numbers begin again when 32 bits run out. -/
def Own (s : Sender) (c : ConnRef) : Prop := ∀ d < s.conns.length, number d = number c → d = c

theorem own_of_few (h : s.conns.length < UInt32.size) (hc : c < s.conns.length) : s.Own c :=
  fun _ hd hn => number_injective (Nat.lt_of_le_of_lt hd h) (Nat.lt_of_le_of_lt hc h) hn

/-- Connections are numbered in the order in which they are made, and an open one is in the table as
long as its number is its own. -/
structure Rostered (s : Sender) : Prop where
  last : s.table.lastId = UInt32.ofNat s.conns.length
  number : ∀ c f, s.look c = some f → f.id = number c
  listed : ∀ c f, s.look c = some f → f.closed = false → s.Own c →
    s.table.get? (Sender.number c) = some c

theorem rostered_start (settings : Settings) : (start settings).Rostered where
  last := rfl
  number := fun _ _ h => by cases h
  listed := fun _ _ h => by cases h

theorem Rostered.numbered (h : s.Rostered) (hx : s.conns[c]? = some x) : x.id = Sender.number c :=
  h.number c x.face (look_eq hx)

theorem Rostered.keep (h : s.Rostered) (hlen : t.conns.length = s.conns.length)
    (hlast : t.table.lastId = s.table.lastId)
    (hl : ∀ c g, t.look c = some g → ∃ f, s.look c = some f ∧ g.id = f.id ∧
      (g.closed = false → f.closed = false ∧ (s.Own c →
        s.table.get? (Sender.number c) = some c → t.table.get? (Sender.number c) = some c))) :
    t.Rostered where
  last := by rw [hlast,hlen,h.last]
  number := by
    intro c g hg
    obtain ⟨f,hf,hid,_⟩ := hl c g hg
    rw [hid,h.number c f hf]
  listed := by
    intro c g hg hopen hown
    obtain ⟨f,hf,_,hrest⟩ := hl c g hg
    obtain ⟨hfopen,hstays⟩ := hrest hopen
    have hold : s.Own c := fun d hd hn => hown d (hlen ▸ hd) hn
    exact hstays hold (h.listed c f hf hfopen hold)

theorem Rostered.made (h : s.Rostered) {bound remote : Address} {now : Nat}
    (ht : t.table = s.table.allocate.2.insert s.table.allocate.1 s.conns.length)
    (hc : t.conns = s.conns ++
      [Connection.start s.table.allocate.1 bound remote s.settings.threshold now]) :
    t.Rostered := by
  have hid : s.table.allocate.1 = Sender.number s.conns.length := by
    show s.table.lastId + 1 = UInt32.ofNat (s.conns.length + 1)
    rw [h.last,UInt32.ofNat_add]
    rfl
  have hlen : t.conns.length = s.conns.length + 1 := by
    rw [hc,List.length_append,List.length_singleton]
  have hlook := look_concat hc
  have hget : ∀ id, t.table.get? id =
      if id = s.table.allocate.1 then some s.conns.length else s.table.get? id := by
    intro id
    rw [ht]
    exact Dict.get?_insert ..
  refine ⟨?_,fun c f hf => ?_,fun c f hf hopen hown => ?_⟩
  · rw [ht,hlen]
    exact hid
  · rw [hlook] at hf
    split at hf
    · exact h.number c f hf
    · split at hf
      · rename_i hce
        rw [← Option.some.inj hf,hce]
        exact hid
      · cases hf
  · rw [hget,hid]
    rw [hlook] at hf
    split at hf
    · rename_i hlt
      rw [if_neg fun hn => Nat.ne_of_gt hlt (hown s.conns.length (hlen ▸ Nat.lt_succ_self _) hn.symm)]
      exact h.listed c f hf hopen fun d hd hn => hown d (hlen ▸ Nat.lt_succ_of_lt hd) hn
    · split at hf
      · rename_i hce
        rw [hce,if_pos rfl]
      · cases hf

theorem Rostered.make (h : s.Rostered) (m : Move) : (s.make m).1.Rostered := by
  have hu := s.make_upheaval m
  have hlen := make_length s m
  generalize (s.make m).1 = t at hu hlen
  have hone : ∀ {d : ConnRef} {x : Connection} {f : Face}, s.conns[d]? = some x →
      t.conns.length = s.conns.length → t.table = s.table → f.id = x.id → f.closed = x.closed →
      (∀ c, t.look c = if c = d then some f else s.look c) → t.Rostered := by
    intro d x f hx hlen ht hid hcl hl
    refine h.keep hlen (by rw [ht]) fun c g hg => ?_
    rw [hl] at hg
    split at hg
    · rename_i hcd
      obtain rfl := Option.some.inj hg
      exact ⟨x.face,hcd ▸ look_eq hx,hid,fun ho => ⟨hcl.symm.trans ho,fun _ hget => ht ▸ hget⟩⟩
    · exact ⟨g,hg,rfl,fun ho => ⟨ho,fun _ hget => ht ▸ hget⟩⟩
  cases hu with
  | rest _ ht hl =>
    have hsame : t.conns.length = s.conns.length := by
      refine Nat.le_antisymm (look_eq_none_iff.mp ?_) (look_eq_none_iff.mp ?_)
      · rw [hl]
        exact look_eq_none_iff.mpr (Nat.le_refl _)
      · rw [← hl]
        exact look_eq_none_iff.mpr (Nat.le_refl _)
    exact h.keep hsame (by rw [ht]) fun c g hg =>
      ⟨g,hl c ▸ hg,rfl,fun ho => ⟨ho,fun _ hget => ht ▸ hget⟩⟩
  | made ht hc => exact h.made ht hc
  | opened hx _ _ _ _ ht hl => exact hone hx hlen ht rfl rfl hl
  | left he _ ht hl =>
    exact hone (lookup_eq_some_iff.mp (established_eq_some_iff.mp he).1).2 hlen ht rfl rfl hl
  | @lapsed d x hx _ _ ht hl =>
    refine h.keep hlen (by rw [ht,Table.lastId_remove]) fun c g hg => ?_
    rw [hl] at hg
    split at hg
    · rename_i hcd
      obtain rfl := Option.some.inj hg
      exact ⟨x.face,hcd ▸ look_eq hx,rfl,fun ho => by cases ho⟩
    · rename_i hcd
      refine ⟨g,hg,rfl,fun ho => ⟨ho,fun hown hget => ?_⟩⟩
      have hdlt := (List.getElem?_eq_some_iff.mp hx).1
      rw [ht,get?_remove,if_neg]
      · exact hget
      · rw [h.numbered hx]
        exact fun hn => hcd (hown d hdlt hn.symm).symm
  | shut ht hl =>
    refine h.keep hlen (by rw [ht]; rfl) fun c g hg => ?_
    rw [hl] at hg
    split at hg
    · obtain ⟨f,hf,rfl⟩ := Option.map_eq_some_iff.mp hg
      exact ⟨f,hf,rfl,fun ho => by cases ho⟩
    · rename_i hout
      exact ⟨g,hg,rfl,fun ho => ⟨ho,fun _ hget =>
        absurd (List.mem_map.mpr ⟨_,Dict.mem_of_get? hget,rfl⟩) hout⟩⟩

theorem rostered_play (settings : Settings) (ms : List Move) :
    ((start settings).play ms).1.Rostered :=
  chain_induct (rostered_start settings) (fun _ ht m => ht.make m) ms

theorem Rostered.get? (h : s.Rostered) (hx : s.conns[c]? = some x) (ho : x.closed = false)
    (hown : s.Own c) : s.table.get? x.id = some c := by
  rw [h.numbered hx]
  exact h.listed c x.face (look_eq hx) ho hown

theorem trim_make (h : s.table.Trim) (m : Move) : (s.make m).1.table.Trim := by
  have hu := s.make_upheaval m
  generalize (s.make m).1 = t at hu
  cases hu with
  | rest _ ht _ => exact ht ▸ h
  | made ht _ =>
    rw [ht]
    exact Table.Trim.insert (t := s.table.allocate.2) ⟨h.nodup,h.storage⟩ _ _
  | opened _ _ _ _ _ ht _ => exact ht ▸ h
  | left _ _ ht _ => exact ht ▸ h
  | lapsed _ _ _ ht _ => exact ht ▸ h.remove _
  | shut ht _ => exact ht ▸ Table.trim_drain s.table

/-- Connections are numbered in the order in which they are made, and the table holds those that
are not torn down. -/
structure Booked (s : Sender) : Prop where
  trim : s.table.Trim
  last : s.table.lastId = UInt32.ofNat s.conns.length
  number : ∀ c f, s.look c = some f → f.id = number c
  listed : ∀ c f, s.look c = some f → f.closed = false → s.table.get? f.id = some c

theorem booked_start (settings : Settings) : (start settings).Booked where
  trim := Table.trim_empty
  last := rfl
  number := fun _ _ h => by cases h
  listed := fun _ _ h => by cases h

theorem Booked.numbered (h : s.Booked) (hx : s.conns[c]? = some x) : x.id = Sender.number c :=
  h.number c x.face (look_eq hx)

theorem Booked.rostered (h : s.Booked) : s.Rostered where
  last := h.last
  number := h.number
  listed := fun c f hf hopen _ => h.number c f hf ▸ h.listed c f hf hopen

/-- While there are fewer connections than numbers, an open one is in the table. -/
theorem Rostered.booked (h : s.Rostered) (ht : s.table.Trim) (hlt : s.conns.length < UInt32.size) :
    s.Booked where
  trim := ht
  last := h.last
  number := h.number
  listed := fun c f hf hopen =>
    (h.number c f hf).symm ▸ h.listed c f hf hopen (own_of_few hlt (lt_of_look hf))

theorem Booked.make (h : s.Booked) (m : Move) (hlt : (s.make m).1.conns.length < UInt32.size) :
    (s.make m).1.Booked :=
  (h.rostered.make m).booked (trim_make h.trim m) hlt

/-- In a play that makes fewer connections than there are numbers the books are kept. -/
theorem Booked.play (h : s.Booked) (ms : List Move)
    (hlt : s.conns.length + binds ms < UInt32.size) :
    (s.play ms).1.Booked := by
  induction ms generalizing s with
  | nil => exact h
  | cons m ms ih =>
    have happ := binds_append [m] ms
    rw [List.singleton_append] at happ
    have hlen := make_length s m
    exact ih (h.make m (by omega)) (by omega)

theorem booked_play (settings : Settings) {ms : List Move} (hlt : binds ms < UInt32.size) :
    ((start settings).play ms).1.Booked :=
  (booked_start settings).play ms (by rwa [start,List.length_nil,Nat.zero_add])

end Sender
end ReliableTransport
