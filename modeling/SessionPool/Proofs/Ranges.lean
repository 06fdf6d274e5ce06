import SessionPool.Proofs.RoundTrip
import SessionPool.Proofs.Stocking

/-!
# Settings from a file are in range

Every number in a settings file is compared with the range of its key when it is read, and is stored
in a word in which this range fits.  So whatever is in a file, its settings are in range, and so are
those that were stored on the way and replaced later.

Others rely on these ranges without looking: the interval of a heartbeat is counted in milliseconds,
the check of settings has nothing to say of a negative timeout, and a pool is made of settings that
have passed the check.

* `ofFile_writable`: what a file gives could be written down again.  This includes the ranges.
* `assign_number`: a number is stored as it was read.
* `PoolLimits.keepAliveMilliseconds_eq`, `valid_iff`: what follows from the ranges.
* `settings_of_file_are_safe`: all this for every file, with the stocking of a pool.
-/

namespace SessionPool

/-! ## What is used of the ranges -/

/-- An interval in seconds that is not too long is the same in milliseconds. -/
theorem PoolLimits.keepAliveMilliseconds_eq {l : PoolLimits} (h : 0 ≤ l.keepAliveInterval)
    (h' : l.keepAliveInterval ≤ Settings.greatestCount) :
    l.keepAliveMilliseconds = l.keepAliveInterval * 1000 := by
  rw [Settings.greatestCount] at h'
  exact Int.bmod_eq_of_le (by rw [Number.wordValues]; omega) (by rw [Number.wordValues]; omega)

/-- If no more clients are wanted at the start than there may be, as many are created. -/
theorem Pool.initialCount_eq {p : Pool} (h : p.limits.initialClients ≤ p.limits.maxClients) :
    p.initialCount = p.limits.initialClients := if_pos h

namespace Settings

variable {s s' : Settings} {k : Key} {d : Datum} {content value : Text} {i : ℕ}
  {least greatest n : Int}

/-- If no timeout is negative, the check finds only the other faults. -/
theorem fault?_ne_negativeTimeout (h : 0 ≤ s.pool.acquireTimeout) :
    s.fault? ≠ some .negativeTimeout := by
  rw [fault?, if_neg (not_lt.mpr h)]
  split_ifs <;> nofun

theorem valid_iff (h : 0 ≤ s.pool.acquireTimeout) : s.valid = true ↔ s.connection.host ≠ [] ∧
    1 ≤ s.pool.maxClients ∧ s.pool.initialClients ≤ s.pool.maxClients := by
  have hone : 1 ≤ s.pool.maxClients ↔ s.pool.maxClients ≠ 0 := by
    rw [UInt64.le_iff_toNat_le, Ne, ← UInt64.toNat_inj]
    exact Nat.one_le_iff_ne_zero
  rw [valid, fault?, if_neg (not_lt.mpr h), hone, ← UInt64.not_lt]
  split_ifs with hhost hmax hinitial
  · simp [hhost]
  · simp [hmax]
  · simp [hinitial]
  · simp [hhost, hmax, hinitial]

/-! ## What is in range -/

/-- All numbers are in range. -/
structure InRange (s : Settings) : Prop where
  port : 1 ≤ s.connection.port.toNat ∧ s.connection.port.toNat ≤ 65535
  connectTimeout : 0 ≤ s.connection.connectTimeout ∧
    s.connection.connectTimeout ≤ 9223372036854775807
  readTimeout : 0 ≤ s.connection.readTimeout ∧ s.connection.readTimeout ≤ 9223372036854775807
  maxClients : s.pool.maxClients.toNat ≤ 2147483647
  acquireTimeout : 0 ≤ s.pool.acquireTimeout ∧ s.pool.acquireTimeout ≤ 9223372036854775807
  initialClients : s.pool.initialClients.toNat ≤ 2147483647
  keepAliveInterval : 0 ≤ s.pool.keepAliveInterval ∧ s.pool.keepAliveInterval ≤ 2147483647

/-- A number that can be written down for a key is in the range of this key. -/
theorem Kind.Holds.range (h : Kind.Holds (.number least greatest) (.number n)) :
    least ≤ n ∧ n ≤ greatest := by
  cases h with
  | number least_le le_greatest => exact ⟨least_le, le_greatest⟩

theorem Writable.inRange (h : s.Writable) : s.InRange where
  port := by exact_mod_cast (h .port).range
  connectTimeout := (h .connectTimeout).range
  readTimeout := (h .readTimeout).range
  maxClients := Int.ofNat_le.mp (h .maxClients).range.2
  acquireTimeout := (h .acquireTimeout).range
  initialClients := Int.ofNat_le.mp (h .initialClients).range.2
  keepAliveInterval := (h .keepAliveInterval).range

/-- The settings that one starts with can be written down. -/
theorem writable_default : ({} : Settings).Writable := by
  intro k
  cases k <;> constructor <;> decide

/-! ## What a file gives -/

/-- A value is within a line. -/
theorem Assigns.lineFeed_notMem (h : Assigns (Text.lines content) i k value) :
    Text.lineFeed ∉ value := by
  obtain ⟨line, hline, ⟨core, before, after, raw, htrim, -, -, -, rfl, -, -, hraw, hvalue⟩, -⟩ := h
  refine fun hb => Text.lineFeed_notMem_of_mem_lines (List.mem_of_getElem? hline) (htrim.mem ?_)
  exact List.mem_append_right before (List.mem_cons_of_mem _ (hraw.mem (hvalue.mem hb)))

/-- What a value gives that has no line feeds could be written down again. -/
theorem Kind.Gives.holds {kind : Kind} (h : kind.Gives value d) (whole : Text.lineFeed ∉ value) :
    kind.Holds d := by
  cases h with
  | text => exact .text whole
  | switch => exact .switch _
  | number reads least_le le_greatest => exact .number least_le le_greatest

/-- Whatever is in a file, its settings could be written down again. -/
theorem ofFile_writable (content : Text) : (ofFile content).Writable := by
  have hfollows : (Reader.file content).Follows (Text.lines content) := Reader.follows _
  intro k
  rcases hfollows.settings k with ⟨i, value, hassigns, hgives, -⟩ | ⟨-, hdefault⟩
  · exact hgives.holds hassigns.lineFeed_notMem
  · exact hdefault ▸ writable_default k

/-- A number is stored as it was read, and only if it is in the range of its key. -/
theorem assign_number (hkind : k.kind = .number least greatest)
    (h : k.assign value s = .ok s') :
    ∃ n, Number.read? value = some n ∧ least ≤ n ∧ n ≤ greatest ∧ k.get s' = .number n := by
  rcases k.kind.gives_or_refuses value with ⟨d, hgives⟩ | ⟨r, hrefuses⟩
  · obtain ⟨s₁, hs₁, hget, -⟩ := Key.assign_of_gives hgives s
    obtain rfl : s₁ = s' := Except.ok.inj (hs₁.symm.trans h)
    rw [hkind] at hgives
    cases hgives with
    | number reads least_le le_greatest =>
      exact ⟨_, Number.read?_eq_some_iff.mpr reads, least_le, le_greatest, hget⟩
  · rw [Key.assign_of_refuses hrefuses] at h
    cases h

/-- Whatever is in a file, its settings are in range, and no number in it was changed when it was
stored.  The interval of its heartbeat is the same in milliseconds.  The check finds nothing but
that the host is missing, that there are no clients, or more at the start than there may be.  If it
finds nothing, a pool can be made with the settings: the call that makes it comes to the pool,
whatever it is told of its sessions, and wants exactly as many as the settings say. -/
theorem settings_of_file_are_safe (content : Text) :
    (ofFile content).InRange ∧
    (∀ (k : Key) (least greatest : Int) (value : Text) (s s' : Settings),
      k.kind = .number least greatest → k.assign value s = .ok s' →
        ∃ n, Number.read? value = some n ∧ least ≤ n ∧ n ≤ greatest ∧ k.get s' = .number n) ∧
    (ofFile content).pool.keepAliveMilliseconds = (ofFile content).pool.keepAliveInterval * 1000 ∧
    (ofFile content).fault? ≠ some .negativeTimeout ∧
    ((ofFile content).valid = true ↔ (ofFile content).connection.host ≠ [] ∧
      1 ≤ (ofFile content).pool.maxClients ∧
        (ofFile content).pool.initialClients ≤ (ofFile content).pool.maxClients) ∧
    ((ofFile content).valid = true → ∀ (m : Machine) (connection : Connection) (dialect : Dialect),
      m.world.crashed = false → ∃ (pool : Pool) (m₁ : Machine),
        pool = { connection, limits := (ofFile content).pool, dialect } ∧
        pool.initialCount = (ofFile content).pool.initialClients ∧
        m.perform (.begin (.construct connection (ofFile content).pool true dialect)) = some m₁ ∧
        m₁.world = m.world.addPool pool ∧
        ∀ es n, m₁.run es = some n → m₁.Stocks m.calls.length m.world.pools.length
          (ofFile content).pool.initialClients.toNat es n) := by
  have hrange := (ofFile_writable content).inRange
  have hvalid := valid_iff hrange.acquireTimeout.1
  refine ⟨hrange, fun _ _ _ _ _ _ => assign_number, ?_, ?_, hvalid, ?_⟩
  · exact PoolLimits.keepAliveMilliseconds_eq hrange.keepAliveInterval.1 hrange.keepAliveInterval.2
  · exact fault?_ne_negativeTimeout hrange.acquireTimeout.1
  · intro h m connection dialect hm
    obtain ⟨-, hmax, hinitial⟩ := hvalid.mp h
    have hne : (ofFile content).pool.maxClients ≠ 0 := by
      rintro hzero
      rw [hzero] at hmax
      exact absurd hmax (by decide)
    obtain ⟨m₁, hm₁, hworld, hstocks⟩ := Machine.stocks_construct connection dialect hne hm
    have hcount := Pool.initialCount_eq (p := { connection, limits := _, dialect }) hinitial
    rw [hcount] at hstocks
    exact ⟨_, m₁, rfl, hcount, hm₁, hworld, hstocks⟩

/-- A file that asks for two clients at the start, after it has asked for more than there may be. -/
def twoWanted : Text := Text.ascii
  "[pool]\nmax_clients=3\ninitial_clients=99999999999\ninitial_clients=4\ninitial_clients=2\n"

/-- A pool gets its first session, and no second one. -/
def secondRefused : List Event :=
  [.advance 0 0, .answer 0 (.opened (.session true)), .advance 0 0, .advance 0 0,
    .answer 0 (.opened (.failed (Text.ascii "421 Too many connections"))), .advance 0 0,
    .advance 0 0]

theorem settings_of_file_are_safe_twoWanted : (ofFile twoWanted).valid = true ∧
    ∃ m₁ n : Machine, Machine.perform {} (.begin
        (.construct {} (ofFile twoWanted).pool true .standard)) = some m₁ ∧
      m₁.run secondRefused = some n ∧ m₁.Stocks 0 0 2 secondRefused n ∧
      n.result? 0 = some (.ok (.pool 0)) ∧ (n.world.pool 0).idle = [0] := by
  have hpool : (ofFile twoWanted).pool = { maxClients := 3, initialClients := 2 } := by
    decide +kernel
  have hvalid : (ofFile twoWanted).valid = true := by decide +kernel
  obtain ⟨-, m₁, -, -, hm₁, -, hstocks⟩ :=
    (settings_of_file_are_safe twoWanted).2.2.2.2.2 hvalid {} {} .standard rfl
  refine ⟨hvalid, m₁, ?_⟩
  rw [hpool] at hm₁ hstocks ⊢
  have hrun : ∃ n, m₁.run secondRefused = some n ∧ n.result? 0 = some (.ok (.pool 0)) ∧
      (n.world.pool 0).idle = [0] := by
    cases hm₁
    exact ⟨_, rfl, rfl, rfl⟩
  obtain ⟨n, hn, hresult, hidle⟩ := hrun
  exact ⟨n, hm₁, hn, hstocks _ n hn, hresult, hidle⟩

end Settings
end SessionPool
