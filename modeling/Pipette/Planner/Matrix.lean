import Pipette.Core.Client

/-! The matrix of a plan: models, runtimes, which runtime loads which model, and the pairs a variant
expands into, once as a list and once counted by type. -/
namespace Pipette.Planner

structure HfRepo where
  org : String
  repoName : String
  revision : Option String
  authToken : Option String
deriving DecidableEq

/-- Where the files of a model live. `fields` are the other fields of the source as it is written. -/
inductive ModelSource
  | huggingFace (repo : HfRepo) (fields : List (String × Json))
  | elsewhere (source : String) (fields : List (String × Json))
deriving DecidableEq

namespace ModelSource

def authToken : ModelSource → Option String
  | huggingFace repo _ => repo.authToken
  | elsewhere _ _ => none

def withoutAuthToken : ModelSource → ModelSource
  | huggingFace repo fields => huggingFace { repo with authToken := none } fields
  | elsewhere source fields => elsewhere source fields

def optionalField (field : String) (value : Option String) : List (String × Json) :=
  (value.map fun v => (field, Json.str v)).toList

def toFields : ModelSource → List (String × Json)
  | huggingFace repo fields =>
    [("source", .str "huggingface"), ("org", .str repo.org), ("repo_name", .str repo.repoName)] ++
      optionalField "revision" repo.revision ++ optionalField "auth_token" repo.authToken ++ fields
  | elsewhere source fields => ("source", .str source) :: fields

end ModelSource

inductive Model
  | ggufText (source : ModelSource)
  | ggufVision (source : ModelSource)
  | ggufVisionSpeculative (source : ModelSource)
  | mlx (source : ModelSource)
  | appleCoreAi (source : ModelSource)
  | mlxSpeculative (target draft : ModelSource)
  | torch (source : ModelSource)
  | torchSpeculative (target draft : ModelSource)
  | openvino (source : ModelSource)
  | onnxGenai (source : ModelSource)
  | appleFoundationText
deriving DecidableEq

inductive ModelType
  | ggufText
  | ggufVision
  | ggufVisionSpeculative
  | mlx
  | appleCoreAi
  | mlxSpeculative
  | torch
  | torchSpeculative
  | openvino
  | onnxGenai
  | appleFoundationText
deriving DecidableEq, Repr

def ModelType.of : Model → ModelType
  | .ggufText _ => .ggufText
  | .ggufVision _ => .ggufVision
  | .ggufVisionSpeculative _ => .ggufVisionSpeculative
  | .mlx _ => .mlx
  | .appleCoreAi _ => .appleCoreAi
  | .mlxSpeculative _ _ => .mlxSpeculative
  | .torch _ => .torch
  | .torchSpeculative _ _ => .torchSpeculative
  | .openvino _ => .openvino
  | .onnxGenai _ => .onnxGenai
  | .appleFoundationText => .appleFoundationText

def ModelType.text : ModelType → String
  | .ggufText => "gguf_text"
  | .ggufVision => "gguf_vision"
  | .ggufVisionSpeculative => "gguf_vision_speculative"
  | .mlx => "mlx"
  | .appleCoreAi => "core_ai"
  | .mlxSpeculative => "mlx_speculative"
  | .torch => "torch"
  | .torchSpeculative => "torch_speculative"
  | .openvino => "openvino"
  | .onnxGenai => "onnx_genai"
  | .appleFoundationText => "apple_foundation_text"

namespace Model

def authToken : Model → Option String
  | ggufText source | ggufVision source | ggufVisionSpeculative source | mlx source
  | appleCoreAi source | torch source | openvino source | onnxGenai source => source.authToken
  | mlxSpeculative target draft | torchSpeculative target draft =>
    target.authToken.or draft.authToken
  | appleFoundationText => none

/-- Both tokens of a pair are cleared, not just the one `authToken` returns. -/
def withoutAuthToken : Model → Model
  | ggufText source => ggufText source.withoutAuthToken
  | ggufVision source => ggufVision source.withoutAuthToken
  | ggufVisionSpeculative source => ggufVisionSpeculative source.withoutAuthToken
  | mlx source => mlx source.withoutAuthToken
  | appleCoreAi source => appleCoreAi source.withoutAuthToken
  | mlxSpeculative target draft => mlxSpeculative target.withoutAuthToken draft.withoutAuthToken
  | torch source => torch source.withoutAuthToken
  | torchSpeculative target draft =>
    torchSpeculative target.withoutAuthToken draft.withoutAuthToken
  | openvino source => openvino source.withoutAuthToken
  | onnxGenai source => onnxGenai source.withoutAuthToken
  | appleFoundationText => appleFoundationText

def toJson (model : Model) : Json :=
  .obj (("type", .str (ModelType.of model).text) ::
    match model with
    | ggufText source | ggufVision source | ggufVisionSpeculative source | mlx source
    | appleCoreAi source | torch source | openvino source | onnxGenai source => source.toFields
    | mlxSpeculative target draft | torchSpeculative target draft =>
      [("target", .obj target.toFields), ("draft", .obj draft.toFields)]
    | appleFoundationText => [])

end Model

inductive OnnxExecutionProvider
  | cpu
  | cuda
  | directMl
  | winMl
  | custom (name : String)
deriving DecidableEq, Repr

inductive RuntimeType
  | llamacppCliStockTools
  | llamacppApkPipette
  | llamacppIosPipette
  | mlxMacosPipette
  | appleCoreAiMacosPipette
  | mlxIosPipette
  | dockerVllm
  | dockerSglang
  | uvVllm
  | uvSglang
  | uvOpenvino
  | uvOnnxGenai
  | ovms
  | onnxGenaiIosPipette
  | appleFoundation
  | trtEdgellm
deriving DecidableEq, Repr

inductive Runtime
  | llamacppCliStockTools (json : Json)
  | llamacppApkPipette (json : Json)
  | llamacppIosPipette (json : Json)
  | mlxMacosPipette (json : Json)
  | appleCoreAiMacosPipette (json : Json)
  | mlxIosPipette (json : Json)
  | dockerVllm (json : Json)
  | dockerSglang (json : Json)
  | uvVllm (json : Json)
  | uvSglang (json : Json)
  | uvOpenvino (json : Json)
  | uvOnnxGenai (provider : OnnxExecutionProvider) (json : Json)
  | ovms (json : Json)
  | onnxGenaiIosPipette (json : Json)
  | appleFoundation (json : Json)
  | trtEdgellm (json : Json)
deriving DecidableEq

def RuntimeType.of : Runtime → RuntimeType
  | .llamacppCliStockTools _ => .llamacppCliStockTools
  | .llamacppApkPipette _ => .llamacppApkPipette
  | .llamacppIosPipette _ => .llamacppIosPipette
  | .mlxMacosPipette _ => .mlxMacosPipette
  | .appleCoreAiMacosPipette _ => .appleCoreAiMacosPipette
  | .mlxIosPipette _ => .mlxIosPipette
  | .dockerVllm _ => .dockerVllm
  | .dockerSglang _ => .dockerSglang
  | .uvVllm _ => .uvVllm
  | .uvSglang _ => .uvSglang
  | .uvOpenvino _ => .uvOpenvino
  | .uvOnnxGenai _ _ => .uvOnnxGenai
  | .ovms _ => .ovms
  | .onnxGenaiIosPipette _ => .onnxGenaiIosPipette
  | .appleFoundation _ => .appleFoundation
  | .trtEdgellm _ => .trtEdgellm

def Runtime.toJson : Runtime → Json
  | .llamacppCliStockTools json | .llamacppApkPipette json | .llamacppIosPipette json
  | .mlxMacosPipette json | .appleCoreAiMacosPipette json | .mlxIosPipette json
  | .dockerVllm json | .dockerSglang json | .uvVllm json | .uvSglang json | .uvOpenvino json
  | .uvOnnxGenai _ json | .ovms json | .onnxGenaiIosPipette json | .appleFoundation json
  | .trtEdgellm json => json

def typesCompatible : ModelType → RuntimeType → Bool
  | .ggufText, .llamacppCliStockTools | .ggufText, .llamacppApkPipette
  | .ggufText, .llamacppIosPipette => true
  | .ggufVision, .llamacppCliStockTools | .ggufVision, .llamacppApkPipette
  | .ggufVision, .llamacppIosPipette => true
  | .ggufVision, .trtEdgellm => true
  | .ggufVisionSpeculative, .llamacppCliStockTools
  | .ggufVisionSpeculative, .llamacppIosPipette => true
  | .mlx, .mlxMacosPipette | .mlx, .mlxIosPipette => true
  | .appleCoreAi, .appleCoreAiMacosPipette => true
  | .mlxSpeculative, .mlxMacosPipette => true
  | .torch, .dockerVllm | .torch, .dockerSglang | .torch, .uvVllm | .torch, .uvSglang => true
  | .torchSpeculative, .dockerSglang | .torchSpeculative, .uvSglang => true
  | .appleFoundationText, .appleFoundation => true
  | .openvino, .uvOpenvino | .openvino, .ovms => true
  | .onnxGenai, .uvOnnxGenai | .onnxGenai, .onnxGenaiIosPipette => true
  | _, _ => false

def isCompatible (model : Model) (runtime : Runtime) : Bool :=
  typesCompatible (.of model) (.of runtime)

def usizeMax : Nat := 2 ^ 64 - 1

def saturatingAdd (a b : Nat) : Nat := min (a + b) usizeMax

def saturatingMul (a b : Nat) : Nat := min (a * b) usizeMax

inductive VariantError
  | modelHasNoCompatibleRuntime (model : Model)
  | runtimeHasNoCompatibleModel (runtime : Runtime)
  | noBenchmarks

def countFirst {T K : Type} [DecidableEq K] (typeOf : T → K) (item : T) :
    List (T × Nat) → List (T × Nat)
  | [] => [(item, 1)]
  | (first, count) :: rest =>
    if typeOf first = typeOf item then (first, count + 1) :: rest
    else (first, count) :: countFirst typeOf item rest

def firstOfEachType {T K : Type} [DecidableEq K] (typeOf : T → K) (items : List T) :
    List (T × Nat) :=
  items.foldl (fun firsts item => countFirst typeOf item firsts) []

def runnableTypePairsOf (models : List Model) (runtimes : List Runtime) :
    Except VariantError (List (Model × Runtime × Nat)) :=
  let models := firstOfEachType ModelType.of models
  let runtimes := firstOfEachType RuntimeType.of runtimes
  match models.find? fun m => !runtimes.any fun r => isCompatible m.1 r.1 with
  | some (model, _) => .error (.modelHasNoCompatibleRuntime model)
  | none =>
    match runtimes.find? fun r => !models.any fun m => isCompatible m.1 r.1 with
    | some (runtime, _) => .error (.runtimeHasNoCompatibleModel runtime)
    | none => .ok (models.flatMap fun (m, mCount) =>
        (runtimes.filter fun r => isCompatible m r.1).map fun (r, rCount) =>
          (m, r, saturatingMul mCount rCount))

/-- The pairs a variant expands into. A model or a runtime without a counterpart is an error. -/
def runnablePairsOf (models : List Model) (runtimes : List Runtime) :
    Except VariantError (List (Model × Runtime)) := do
  let _ ← runnableTypePairsOf models runtimes
  pure (models.flatMap fun m => (runtimes.filter fun r => isCompatible m r).map fun r => (m, r))

inductive BenchmarkType
  | prefillThroughput
  | decodeThroughput
  | endToEndLatency
  | maxMemoryUsage
  | eval
  | vlmEval
  | asrEval
  | vlThroughput
  | vlMaxMemory
  | vlSpecDecode
  | asrThroughput
  | asrMaxMemory
deriving DecidableEq, Repr

structure CellFlags where
  benchmarkType : BenchmarkType
  runtimeType : RuntimeType
  modelType : ModelType
  json : Json
deriving DecidableEq

def CellFlags.matches (flags : CellFlags) (benchmark : BenchmarkType) (runtime : Runtime)
    (model : Model) : Bool :=
  decide ((flags.benchmarkType, flags.runtimeType, flags.modelType) =
    (benchmark, RuntimeType.of runtime, ModelType.of model))

structure ModelFlags where
  benchmarkType : BenchmarkType
  modelType : ModelType
  json : Json
deriving DecidableEq

def ModelFlags.matches (flags : ModelFlags) (benchmark : BenchmarkType) (model : Model) : Bool :=
  decide ((flags.benchmarkType, flags.modelType) = (benchmark, ModelType.of model))

def resolveCellFlags (entries : List CellFlags) (benchmark : Option BenchmarkType)
    (runtime : Runtime) (model : Model) : Option CellFlags := do
  let bt ← benchmark
  entries.find? (·.matches bt runtime model)

def resolveModelFlags (entries : List ModelFlags) (benchmark : Option BenchmarkType)
    (model : Model) : Option ModelFlags := do
  let bt ← benchmark
  entries.find? (·.matches bt model)

def resolveBenchmarks (variantBenchmarks planBenchmarks : Option (List String)) :
    Except VariantError (List String) :=
  match variantBenchmarks.or planBenchmarks with
  | some benchmarks => .ok benchmarks
  | none => .error .noBenchmarks

end Pipette.Planner
