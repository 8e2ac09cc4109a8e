import DistExp.Rpc.NetworkProgress

namespace DistExp.Rpc.RemoteCalls

open DistExp.Library.Runs DistExp.Msgpack.Adaptor DistExp.Rpc.Codec DistExp.Rpc.Md5
  DistExp.Rpc.ClientCalls DistExp.Rpc.Wire DistExp.Rpc.Routing DistExp.Rpc.Sessions
  DistExp.Rpc.SessionSteps DistExp.Rpc.Systems DistExp.Rpc.Networks DistExp.Rpc.NetworkProgress

variable {σ ι : Type} [DecidableEq ι] {r : Router σ} {s s' : σ} {p : Packable} {ps : List Packable}
  {data bs : List UInt8} {key : UInt32}

end DistExp.Rpc.RemoteCalls
