import OhlcvValidator.BarReconstruction
import OhlcvValidator.OrderedUpdate
import OhlcvValidator.ReplayBench

namespace OhlcvValidator

namespace Validator

variable {F : Type} [PriceArith F]

/-- Two streams with few enough symbols give a record the same result if the
records of its symbol that precede it are the same. -/
theorem results_eq_of_same_symbol {pre pre' post post' : List (WireRecord F)} {rec : WireRecord F}
    (hfew : ((pre ++ rec :: post).map WireRecord.symbol).toFinset.card ≤ 4096)
    (hfew' : ((pre' ++ rec :: post').map WireRecord.symbol).toFinset.card ≤ 4096)
    (hsame : pre.filter (fun r => r.symbol = rec.symbol) =
      pre'.filter fun r => r.symbol = rec.symbol) :
    (run (pre ++ rec :: post)).2[pre.length]? = (run (pre' ++ rec :: post')).2[pre'.length]? := by
  obtain ⟨hroom, hcheck⟩ := check_of_few hfew
  obtain ⟨hroom', hcheck'⟩ := check_of_few hfew'
  rw [results_run_getElem?, results_run_getElem?, hcheck, hcheck', (slots_run hroom).1,
    (slots_run hroom').1, hsame]

end Validator

namespace Replay

/-- The bytes that the routing key is read from, through the union. -/
def recordSymbol (r : WireRecord) : Symbol :=
  if r.type = RecordType.Trade.toByte then r.trade.symbol else r.bar.symbol

/-- The thread that owns a symbol: the mixed key's upper half modulo the thread count. -/
def symbolOwner (threads : Nat) (symbol : Symbol) : Nat :=
  ((symbolKey symbol * 0x9E3779B97F4A7C15) >>> 32).toNat % threads

def owner (threads : Nat) (r : WireRecord) : Nat :=
  symbolOwner threads (recordSymbol r)

/-- The partition loop: each record is appended to its owner's buffer. -/
def shards (threads : Nat) (recs : List WireRecord) : Nat → List WireRecord :=
  recs.foldl (fun buf r =>
    Function.update buf (owner threads r) (buf (owner threads r) ++ [r])) fun _ => []

/-- Where a record of the file lies in its owner's buffer. -/
def shardIndex (threads : Nat) (recs : List WireRecord) (i t : Nat) : Nat :=
  ((recs.take i).filter fun r => owner threads r = t).length

variable {threads : Nat} {recs : List WireRecord}

theorem shards_eq_filter (threads : Nat) (recs : List WireRecord) (t : Nat) :
    shards threads recs t = recs.filter fun r => owner threads r = t := by
  induction recs using List.reverseRecOn with
  | nil => rfl
  | append_singleton recs r ih =>
    have hstep : shards threads (recs ++ [r]) = Function.update (shards threads recs)
        (owner threads r) (shards threads recs (owner threads r) ++ [r]) := by
      simp [shards]
    rw [hstep, List.filter_append]
    by_cases ht : owner threads r = t
    · subst ht
      simp [ih]
    · simp [Function.update_of_ne (Ne.symm ht), ht, ih]

variable {F : Type} (ofBits : DoubleBits → F)

/-- Every member of the union has its symbol at the same place. -/
theorem dispatch_symbol (r : WireRecord) : (r.dispatch ofBits).symbol = recordSymbol r := by
  unfold WireRecord.dispatch recordSymbol
  split
  next => rfl
  next => split <;> rfl

theorem map_dispatch_symbol (recs : List WireRecord) :
    (recs.map (WireRecord.dispatch ofBits)).map OhlcvValidator.WireRecord.symbol =
      recs.map recordSymbol := by
  rw [List.map_map]
  exact List.map_congr_left fun r _ => dispatch_symbol ofBits r

theorem filter_dispatch_symbol (symbol : Symbol) (recs : List WireRecord) :
    (recs.map (WireRecord.dispatch ofBits)).filter (fun r => r.symbol = symbol) =
      (recs.filter fun r => recordSymbol r = symbol).map (WireRecord.dispatch ofBits) := by
  rw [List.filter_map]
  congr 2
  funext r
  simp [dispatch_symbol]

/-- The buffer of a symbol's owner has all records of the symbol, the others none. -/
theorem filter_shard (t : Nat) (symbol : Symbol) (recs : List WireRecord) :
    (recs.filter fun r => owner threads r = t).filter (fun r => recordSymbol r = symbol) =
      if symbolOwner threads symbol = t then recs.filter fun r => recordSymbol r = symbol
      else [] := by
  rw [List.filter_filter]
  split
  next h =>
    refine List.filter_congr fun r _ => ?_
    by_cases hs : recordSymbol r = symbol <;> simp [owner, hs, h]
  next h =>
    refine List.filter_eq_nil_iff.mpr fun r _ => ?_
    by_cases hs : recordSymbol r = symbol <;> simp [owner, hs, h]

/-- Sharded validation is single-threaded validation: every record goes to one
shard, a symbol's records stay together in file order, and each record gets from
its shard's validator what it gets from one validator for the whole stream. -/
theorem sharded_eq_single [PriceArith F] (hT : 0 < threads)
    (hfew : (recs.map recordSymbol).toFinset.card ≤ 4096) :
    (∀ r, owner threads r < threads) ∧
    (∀ t, shards threads recs t = recs.filter fun r => owner threads r = t) ∧
    (∀ t symbol, (shards threads recs t).filter (fun r => recordSymbol r = symbol) =
      if symbolOwner threads symbol = t then recs.filter fun r => recordSymbol r = symbol
      else []) ∧
    ∀ i r, recs[i]? = some r →
      (shards threads recs (owner threads r))[shardIndex threads recs i (owner threads r)]? =
        some r ∧
      ∃ result, (benchPass ofBits recs).2[i]? = some result ∧
        (benchPass ofBits (shards threads recs (owner threads r))).2[shardIndex threads recs i
          (owner threads r)]? = some result := by
  refine ⟨fun r => Nat.mod_lt _ hT, shards_eq_filter threads recs, ?_, ?_⟩
  · intro t symbol
    rw [shards_eq_filter, filter_shard]
  · intro i r hr
    obtain ⟨hi, rfl⟩ := List.getElem?_eq_some_iff.mp hr
    -- split the stream, and with it the shard, at the record
    let pre := recs.take i
    let post := recs.drop (i + 1)
    let t := owner threads recs[i]
    have hsplit : recs = pre ++ recs[i] :: post := split_of_getElem? hr
    have hshard : shards threads recs t =
        (pre.filter fun r => owner threads r = t) ++
          recs[i] :: post.filter fun r => owner threads r = t := by
      rw [shards_eq_filter]
      conv_lhs => rw [hsplit]
      rw [List.filter_append, List.filter_cons_of_pos (by simp [t])]
    have hlen : pre.length = i := by simp [pre, hi.le]
    have hfewShard : (((shards threads recs t)).map recordSymbol).toFinset.card ≤ 4096 := by
      refine (Finset.card_le_card ?_).trans hfew
      intro s hs
      rw [List.mem_toFinset, List.mem_map] at hs ⊢
      obtain ⟨r, hr, rfl⟩ := hs
      rw [shards_eq_filter] at hr
      exact ⟨r, (List.mem_filter.mp hr).1, rfl⟩
    let D := WireRecord.dispatch ofBits
    let own := pre.filter fun r => owner threads r = t
    let rest := post.filter fun r => owner threads r = t
    have hmap : recs.map D = pre.map D ++ D recs[i] :: post.map D := by
      conv_lhs => rw [hsplit]
      rw [List.map_append, List.map_cons]
    have hmapShard : (shards threads recs t).map D = own.map D ++ D recs[i] :: rest.map D := by
      rw [hshard, List.map_append, List.map_cons]
    have hfewAll : ((pre.map D ++ D recs[i] :: post.map D).map
        OhlcvValidator.WireRecord.symbol).toFinset.card ≤ 4096 := by
      rw [← hmap, map_dispatch_symbol]
      exact hfew
    have hfewOwn : ((own.map D ++ D recs[i] :: rest.map D).map
        OhlcvValidator.WireRecord.symbol).toFinset.card ≤ 4096 := by
      rw [← hmapShard, map_dispatch_symbol]
      exact hfewShard
    have hsame : (pre.map D).filter (fun r => r.symbol = (D recs[i]).symbol) =
        (own.map D).filter fun r => r.symbol = (D recs[i]).symbol := by
      have hself : symbolOwner threads (recordSymbol recs[i]) = t := rfl
      rw [dispatch_symbol, filter_dispatch_symbol, filter_dispatch_symbol, filter_shard,
        if_pos hself]
    have heq := Validator.results_eq_of_same_symbol hfewAll hfewOwn hsame
    rw [← hmap, ← hmapShard, List.length_map, List.length_map, hlen] at heq
    have hin : i < (benchPass ofBits recs).2.length := by
      rw [benchPass, Validator.length_run, List.length_map]
      exact hi
    refine ⟨?_, (benchPass ofBits recs).2[i], List.getElem?_eq_getElem hin, ?_⟩
    · change (shards threads recs t)[own.length]? = some recs[i]
      rw [hshard, List.getElem?_append_right le_rfl, Nat.sub_self]
      rfl
    · rw [← List.getElem?_eq_getElem hin]
      exact heq.symm

/-- Two threads, a trade, a bar and a record of an unknown type. -/
theorem sharded_eq_single_twoThreads :
    ∃ result,
      (benchPass (fun x => (x.toNat : ℚ))
        [fill 0, fill 1, fill 7]).2[2]? = some result ∧
      (benchPass (fun x => (x.toNat : ℚ))
        (shards 2 [fill 0, fill 1, fill 7] (owner 2 (fill 7)))).2[shardIndex 2
          [fill 0, fill 1, fill 7] 2 (owner 2 (fill 7))]? = some result :=
  ((sharded_eq_single (fun x => (x.toNat : ℚ)) (by decide) (by decide)).2.2.2 2 (fill 7) rfl).2

end Replay

end OhlcvValidator
