/-
# The cache of host names

`socket_ip2host` looks an address up in `dns_list`. When it is not there a resolver thread
is started with a new record, asks for the name, and puts the record on the list. The walk
over the list, the start of the resolver and the push are separate steps, with those of all
other threads between them.
-/

import ThreeW3.Walks.Model

namespace ThreeW3.HostCache

open ThreeW3.Lib ThreeW3.LinkedList ThreeW3.Walks

universe u v
variable {ι : Type u} {K : Type v}

/-- `dns_t`; of its fields only `ip`, which holds the text of any address and is not changed
again. A record is named by its allocation, so equal records are equal pointers. -/
structure Dns (K : Type v) where
  addr : ℕ
  ip : K
  deriving DecidableEq

/-- `dns_list` with the threads that walk it, the number of the next record, the records
that threads have made in `socket_ip2host` and come to `pthread_create` with, and the
records of the resolver threads. -/
structure Cache (ι : Type u) (K : Type v) where
  walkers : Walkers ι (Dns K) K
  fresh : ℕ
  made : ι → Option (Dns K)
  resolving : List (Dns K)

/-- A step of a thread in `socket_ip2host`, or of a resolver. -/
inductive Act (ι : Type u) (K : Type v)
  /-- The call of `socket_ip2host`. -/
  | ip2host (i : ι) (ip : K)
  /-- The next step of its loop, or of `list_delete_data`. -/
  | walk (i : ι)
  /-- malloc(3), which may fail. -/
  | malloc (i : ι) (ok : Bool)
  /-- `pthread_create`, which may fail. -/
  | create (i : ι) (ok : Bool)
  /-- gethostbyaddr(3) has returned, and a resolver calls `list_push`. -/
  | push (dns : Dns K)
  deriving DecidableEq

namespace Cache

variable [DecidableEq ι] [DecidableEq K]

/-- A step of a walk, or an insertion. -/
def onList (s : Cache ι K) (act : Walks.Act ι (Dns K) K) : Option (Cache ι K) :=
  (s.walkers.step Dns.ip act).map fun w => { s with walkers := w }

def step (s : Cache ι K) : Act ι K → Option (Cache ι K)
  | .ip2host i ip => s.onList (.ip2host i ip)
  | .walk i => s.onList (.resume i)
  | .malloc i true => match s.walkers.loop i with
    | .missed ip => some { s with
        made := Function.update s.made i (some ⟨s.fresh, ip⟩)
        fresh := s.fresh + 1 }
    | _ => none
  | .malloc i false => s.onList (.resume i)
  | .create i true => (s.made i).bind fun dns => onList { s with
      made := Function.update s.made i none
      resolving := dns :: s.resolving } (.resume i)
  | .create i false => (s.made i).bind fun dns => onList { s with
      made := Function.update s.made i none } (.deleteData i dns)
  | .push dns => onList { s with resolving := s.resolving.erase dns } (.insert .fwd dns)

end Cache

/-- The threads go on with their calls, and resolvers push their records. -/
def Act.enabled [DecidableEq K] (s : Cache ι K) : Act ι K → Bool
  | ip2host i _ => s.walkers.Idle i
  | walk i => ¬ s.walkers.Idle i && !(s.walkers.loop i).isMissed
  | malloc i _ => (s.walkers.loop i).isMissed && s.made i = none
  | create i _ => (s.made i).isSome
  | push dns => dns ∈ s.resolving

/-- The cache with no names. -/
def caches (ι : Type u) (K : Type v) [DecidableEq ι] [DecidableEq K] :
    Machine (Cache ι K) (Act ι K) where
  init := ⟨.new, 0, fun _ => none, []⟩
  enabled := fun s act => act.enabled s = true
  step := Cache.step

instance cachesDecidableEnabled [DecidableEq ι] [DecidableEq K] (s : Cache ι K) (act : Act ι K) :
    Decidable ((caches ι K).enabled s act) := inferInstanceAs (Decidable (_ = true))

end ThreeW3.HostCache
